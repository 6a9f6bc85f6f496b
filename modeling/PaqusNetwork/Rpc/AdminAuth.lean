import Mathlib.Data.List.Basic
import Mathlib.Data.LawfulXor.Basic

namespace PaqusNetwork

def byteDifference (left right : List UInt8) (index : Nat) : Nat := (left.getD index 0 ^^^ right.getD index 0).toNat

def constantTimeEq (left right : List UInt8) : Bool :=
  (List.range (max left.length right.length)).foldl (fun difference index =>
    difference ||| byteDifference left right index) (left.length ^^^ right.length) == 0

structure AdminRefusal where
  status : Nat
  wwwAuthenticate : String
  error : String
  deriving DecidableEq

def adminRefusal : AdminRefusal := ⟨401, "Bearer", "admin authentication required"⟩

def bearer : List UInt8 := "Bearer ".toUTF8.data.toList

/-- `HeaderValue::to_str` gives the bytes of the value as a text, or refuses. -/
structure HeaderLaws (toStr : List UInt8 → Option (List UInt8)) : Prop where
  same : ∀ {value text}, toStr value = some text → text = value

variable {α : Type} (toStr : List UInt8 → Option (List UInt8)) (expected : List UInt8)
  (authorization : Option (List UInt8)) (next : α)

def requireAdminAuth : Except AdminRefusal α :=
  let supplied := (authorization.bind toStr).bind (·.dropPrefix? bearer)
  if supplied.any (constantTimeEq · expected) then .ok next else .error adminRefusal

theorem foldl_or_eq_zero (f : Nat → Nat) (indices : List Nat) (start : Nat) :
    indices.foldl (fun acc index => acc ||| f index) start = 0 ↔ start = 0 ∧ ∀ index ∈ indices, f index = 0 := by
  induction indices generalizing start with
  | nil => simp
  | cons index indices ih => simp [ih, Nat.or_eq_zero_iff, and_assoc]

theorem constantTimeEq_iff (left right : List UInt8) : constantTimeEq left right ↔ left = right := by
  constructor
  · intro h
    obtain ⟨hlength, hbytes⟩ := (foldl_or_eq_zero _ _ _).mp (beq_iff_eq.mp h)
    have hlength : left.length = right.length := xor_eq_zero_iff.mp hlength
    refine List.ext_getElem hlength fun index hleft hright => ?_
    have hbyte := hbytes index (by simp; omega)
    simpa [byteDifference, hleft, hright, UInt8.toNat_inj] using hbyte
  · rintro rfl
    exact beq_iff_eq.mpr ((foldl_or_eq_zero _ _ _).mpr ⟨Nat.xor_self _, by simp [byteDifference]⟩)

variable {toStr} in
/-- The handler runs for the header that reads as the very token of the node, and for no other. -/
theorem requireAdminAuth_eq (header : HeaderLaws toStr) : requireAdminAuth toStr expected authorization next =
    if authorization = some (bearer ++ expected) ∧ (toStr (bearer ++ expected)).isSome then .ok next
    else .error adminRefusal := by
  refine if_congr ?_ rfl rfl
  simp only [Option.any_eq_true, Option.bind_eq_some_iff, List.dropPrefix?_eq_some_iff, beq_iff_eq, constantTimeEq_iff]
  constructor
  · rintro ⟨_, ⟨text, ⟨value, rfl, htext⟩, _, rfl, rfl⟩, rfl⟩
    obtain rfl := header.same htext
    exact ⟨rfl, Option.isSome_iff_exists.mpr ⟨_, htext⟩⟩
  · rintro ⟨rfl, hreadable⟩
    obtain ⟨text, htext⟩ := Option.isSome_iff_exists.mp hreadable
    obtain rfl := header.same htext
    exact ⟨_, ⟨_, ⟨_, rfl, htext⟩, _, rfl, rfl⟩, rfl⟩

namespace Reference

def visibleText (value : List UInt8) : Option (List UInt8) :=
  if value.all fun byte => 32 ≤ byte && byte < 127 then some value else none

theorem visibleText_laws : HeaderLaws visibleText where
  same h := by
    unfold visibleText at h
    split at h
    · exact (Option.some.inj h).symm
    · cases h

/-- The token lets the request through; a longer one with the same beginning and a missing header do not. -/
theorem requireAdminAuth_token :
    requireAdminAuth visibleText "token".toUTF8.data.toList (some "Bearer token".toUTF8.data.toList) () = .ok () ∧
    requireAdminAuth visibleText "token".toUTF8.data.toList (some "Bearer token1".toUTF8.data.toList) () =
      .error adminRefusal ∧
    requireAdminAuth visibleText "token".toUTF8.data.toList none () = .error adminRefusal := by
  simp only [requireAdminAuth_eq _ _ _ visibleText_laws]
  decide

end Reference

end PaqusNetwork
