import PaqusNetwork.LineLog

namespace PaqusNetwork

open LineLog

/-- The reader finds what was written, whatever follows. -/
structure Encoding (α : Type) where
  write : α → List UInt8
  read : List UInt8 → Option (α × List UInt8)
  read_write : ∀ value rest, read (write value ++ rest) = some (value, rest)
  read_more : ∀ {bytes value rest}, read bytes = some (value, rest) →
    ∀ more, read (bytes ++ more) = some (value, rest ++ more)

namespace Encoding

variable {α β : Type}

def pair (first : Encoding α) (second : Encoding β) : Encoding (α × β) where
  write value := first.write value.1 ++ second.write value.2
  read bytes := do
    let (left, rest) ← first.read bytes
    let (right, rest) ← second.read rest
    return ((left, right), rest)
  read_write value rest := by
    rw [List.append_assoc, first.read_write]
    show (do let (right, rest) ← second.read (second.write value.2 ++ rest); return ((value.1, right), rest)) = _
    rw [second.read_write]
    rfl
  read_more {bytes value rest} h more := by
    obtain ⟨⟨left, middle⟩, hleft, h⟩ := Option.bind_eq_some_iff.mp h
    obtain ⟨⟨right, last⟩, hright, h⟩ := Option.bind_eq_some_iff.mp h
    cases h
    rw [first.read_more hleft]
    show (do let (right, rest) ← second.read (middle ++ more); return ((left, right), rest)) = _
    rw [second.read_more hright]
    rfl

def map (encoding : Encoding α) (forth : α → β) (back : β → α)
    (inverse : ∀ value, forth (back value) = value) : Encoding β where
  write value := encoding.write (back value)
  read bytes := (encoding.read bytes).map fun found => (forth found.1, found.2)
  read_write value rest := by
    rw [encoding.read_write, Option.map_some, inverse]
  read_more h more := by
    obtain ⟨found, hfound, heq⟩ := Option.map_eq_some_iff.mp h
    cases heq
    rw [encoding.read_more hfound]
    rfl

def writeNumber : Nat → List UInt8
  | 0 => [0]
  | value + 1 => 1 :: writeNumber value

def readNumber : List UInt8 → Option (Nat × List UInt8)
  | [] => none
  | digit :: bytes =>
    if digit = 0 then some (0, bytes) else (readNumber bytes).map fun found => (found.1 + 1, found.2)

def number : Encoding Nat where
  write := writeNumber
  read := readNumber
  read_write value rest := by
    induction value with
    | zero => rfl
    | succ value ih =>
      show (readNumber (writeNumber value ++ rest)).map _ = _
      rw [ih]
      rfl
  read_more {bytes value rest} h more := by
    induction bytes generalizing value rest with
    | nil => cases h
    | cons digit bytes ih =>
      unfold readNumber at h
      rw [List.cons_append, readNumber]
      split at h
      · rename_i hdigit
        cases h
        rw [if_pos hdigit]
      · rename_i hdigit
        obtain ⟨found, hfound, heq⟩ := Option.map_eq_some_iff.mp h
        cases heq
        rw [if_neg hdigit, ih hfound]
        rfl

def readItems (encoding : Encoding α) : Nat → List UInt8 → Option (List α × List UInt8)
  | 0, bytes => some ([], bytes)
  | count + 1, bytes => do
    let (item, rest) ← encoding.read bytes
    let (items, rest) ← readItems encoding count rest
    return (item :: items, rest)

theorem readItems_write (encoding : Encoding α) (items : List α) (rest : List UInt8) :
    readItems encoding items.length (items.flatMap encoding.write ++ rest) = some (items, rest) := by
  induction items with
  | nil => rfl
  | cons item items ih =>
    rw [List.length_cons, readItems, List.flatMap_cons, List.append_assoc, encoding.read_write]
    show (do let (items, rest) ← readItems encoding items.length _; return (item :: items, rest)) = _
    rw [ih]
    rfl

theorem readItems_more {encoding : Encoding α} {count : Nat} {bytes rest : List UInt8} {items : List α}
    (h : readItems encoding count bytes = some (items, rest)) (more : List UInt8) :
    readItems encoding count (bytes ++ more) = some (items, rest ++ more) := by
  induction count generalizing bytes rest items with
  | zero =>
    cases h
    rfl
  | succ count ih =>
    obtain ⟨⟨item, middle⟩, hitem, h⟩ := Option.bind_eq_some_iff.mp h
    obtain ⟨⟨others, last⟩, hothers, h⟩ := Option.bind_eq_some_iff.mp h
    cases h
    rw [readItems, encoding.read_more hitem]
    show (do let (items, rest) ← readItems encoding count (middle ++ more); return (item :: items, rest)) = _
    rw [ih hothers]
    rfl

def list (encoding : Encoding α) : Encoding (List α) where
  write items := number.write items.length ++ items.flatMap encoding.write
  read bytes := do
    let (count, rest) ← number.read bytes
    readItems encoding count rest
  read_write items rest := by
    rw [List.append_assoc, number.read_write items.length]
    exact readItems_write encoding items rest
  read_more {bytes items rest} h more := by
    obtain ⟨⟨count, middle⟩, hcount, h⟩ := Option.bind_eq_some_iff.mp h
    rw [number.read_more hcount]
    exact readItems_more h more

def byte : Encoding UInt8 := number.map UInt8.ofNat UInt8.toNat fun _ => UInt8.ofNat_toNat

def option (encoding : Encoding α) : Encoding (Option α) :=
  encoding.list.map List.head? Option.toList fun value => by cases value <;> rfl

def char : Encoding Char :=
  (number.pair number).map (fun (high, low) => .ofNat (16 * high + low))
    (fun char => (char.toNat / 16, char.toNat % 16))
    fun char => by dsimp only; rw [Nat.div_add_mod, Char.ofNat_toNat]

def text : Encoding String := char.list.map String.ofList String.toList fun _ => String.ofList_toList

def decode (encoding : Encoding α) (bytes : List UInt8) : Option α :=
  match encoding.read bytes with
  | some (value, []) => some value
  | _ => none

theorem decode_write (encoding : Encoding α) (value : α) : encoding.decode (encoding.write value) = some value := by
  have hread := encoding.read_write value []
  rw [List.append_nil] at hread
  unfold decode
  rw [hread]

/-- Nothing shorter than what was written is an encoding. -/
theorem decode_take (encoding : Encoding α) (value : α) {count : Nat} (h : count < (encoding.write value).length) :
    encoding.decode ((encoding.write value).take count) = none := by
  unfold decode
  split
  · rename_i found hread
    have hmore := encoding.read_more hread ((encoding.write value).drop count)
    have hwhole := encoding.read_write value []
    rw [List.take_append_drop] at hmore
    rw [List.append_nil, hmore] at hwhole
    have hlength := congrArg List.length (Prod.mk.inj (Option.some.inj hwhole)).2
    simp at hlength
    omega
  · rfl

end Encoding

namespace Encoding

variable {α β ε : Type}

def OneLine (encoding : Encoding α) : Prop :=
  ∀ value, ∀ byte ∈ encoding.write value, byte ≠ lineFeed ∧ byte ≠ carriageReturn

theorem OneLine.pair {first : Encoding α} {second : Encoding β} (hfirst : first.OneLine)
    (hsecond : second.OneLine) : (first.pair second).OneLine := by
  intro value byte hbyte
  rcases List.mem_append.mp hbyte with hleft | hright
  · exact hfirst _ byte hleft
  · exact hsecond _ byte hright

variable {encoding : Encoding α}

theorem OneLine.map (h : encoding.OneLine) {forth : α → β} {back : β → α}
    (inverse : ∀ value, forth (back value) = value) : (encoding.map forth back inverse).OneLine :=
  fun value => h (back value)

theorem number_oneLine : number.OneLine := by
  intro value
  induction value with
  | zero =>
    intro byte hbyte
    rw [List.mem_singleton.mp hbyte]
    decide
  | succ value ih =>
    intro byte hbyte
    rcases List.mem_cons.mp hbyte with rfl | hrest
    · decide
    · exact ih byte hrest

theorem OneLine.list (h : encoding.OneLine) : encoding.list.OneLine := by
  intro items byte hbyte
  rcases List.mem_append.mp hbyte with hcount | hitems
  · exact number_oneLine _ byte hcount
  · obtain ⟨item, _, hitem⟩ := List.mem_flatMap.mp hitems
    exact h item byte hitem

theorem text_oneLine : text.OneLine := OneLine.map (OneLine.list (OneLine.map (number_oneLine.pair number_oneLine) _)) _

theorem number_ne_nil (value : Nat) : number.write value ≠ [] := by
  cases value with
  | zero => exact List.cons_ne_nil _ _
  | succ value => exact List.cons_ne_nil _ _

theorem text_ne_nil (value : String) : text.write value ≠ [] := List.append_ne_nil_of_left_ne_nil (number_ne_nil _) _

def parseLine (encoding : Encoding α) (error : ε) (line : List UInt8) : Except ε (Option α) :=
  if line = [] then .ok none
  else
    match encoding.decode line with
    | some value => .ok (some value)
    | none => .error error

variable {error : ε} {line : List UInt8}

theorem parseLine_none (h : encoding.parseLine error line = .ok none) : line = [] := by
  unfold parseLine at h
  split at h
  next hnil => exact hnil
  next =>
    split at h
    next => cases h
    next => cases h

theorem parseLine_some {value : α}
    (h : encoding.parseLine error line = .ok (some value)) : encoding.read line = some (value, []) := by
  unfold parseLine at h
  split at h
  next => cases h
  next =>
    split at h
    next found hfound =>
      cases h
      unfold decode at hfound
      split at hfound
      next hread =>
        cases hfound
        exact hread
      next => cases hfound
    next => cases h

theorem OneLine.format (h : encoding.OneLine) (hne : ∀ value, encoding.write value ≠ [])
    (error : ε) : Format encoding.write fun _ => encoding.parseLine error where
  lineFeed value hmem := (h value _ hmem).1 rfl
  carriageReturn value hmem := (h value _ hmem).2 rfl
  blank _ := rfl
  whole {_ start} value hstart := by
    refine .inl ?_
    rw [parseLine_none hstart, List.nil_append, parseLine, if_neg (hne value), encoding.decode_write]
  cut {_ start part} value hstart hpart hnil hstrict := by
    have hlength : part.length < (encoding.write value).length :=
      Nat.lt_of_le_of_ne hpart.length_le fun heq => hstrict (hpart.eq_of_length heq)
    have hcut := encoding.decode_take value hlength
    rw [← List.prefix_iff_eq_take.mp hpart] at hcut
    refine ⟨error, ?_⟩
    rw [parseLine_none hstart, List.nil_append, parseLine, if_neg hnil, hcut]
  trailing {_ start part first} value hstart _ hnil := by
    refine ⟨error, ?_⟩
    have hread := parseLine_some hstart
    rw [parseLine, if_neg (List.append_ne_nil_of_right_ne_nil _ hnil), decode, encoding.read_more hread,
      List.nil_append]
    cases part with
    | nil => exact absurd rfl hnil
    | cons byte rest => rfl

end Encoding

end PaqusNetwork
