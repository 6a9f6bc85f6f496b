import PaqusNetwork.Effect
import Mathlib.Data.List.Infix

namespace LineLog

open Effect

variable {R ε : Type} {index : Nat} {items : List R}

def lineFeed : UInt8 := 10

def carriageReturn : UInt8 := 13

def stripReturn (line : List UInt8) : List UInt8 :=
  if line.getLast? = some carriageReturn then line.dropLast else line

/-- The lines that end in a line feed, and what follows the last of them; `tail` has been read already. -/
def splitLines : List UInt8 → List UInt8 → List (List UInt8) × List UInt8
  | [], tail => ([], tail)
  | byte :: rest, tail =>
    if byte = lineFeed then
      (stripReturn tail :: (splitLines rest []).1, (splitLines rest []).2)
    else splitLines rest (tail ++ [byte])

def tailLine (tail : List UInt8) : List (List UInt8) := if tail.isEmpty then [] else [tail]

def lines (bytes : List UInt8) : List (List UInt8) := (splitLines bytes []).1 ++ tailLine (splitLines bytes []).2

theorem splitLines_append (left right tail : List UInt8) :
    splitLines (left ++ right) tail =
      ((splitLines left tail).1 ++ (splitLines right (splitLines left tail).2).1,
        (splitLines right (splitLines left tail).2).2) := by
  induction left generalizing tail with
  | nil => rfl
  | cons byte rest ih =>
    simp only [List.cons_append, splitLines]
    split
    · rw [ih]
      rfl
    · exact ih _

theorem splitLines_plain {bytes : List UInt8} (h : lineFeed ∉ bytes) (tail : List UInt8) :
    splitLines bytes tail = ([], tail ++ bytes) := by
  induction bytes generalizing tail with
  | nil => simp [splitLines]
  | cons byte rest ih =>
    rw [List.mem_cons, not_or] at h
    rw [splitLines, if_neg (Ne.symm h.1), ih h.2, List.append_assoc]
    rfl

def readLines (parse : Nat → List UInt8 → Except ε (Option R)) : Nat → List (List UInt8) → Except ε (List R)
  | _, [] => .ok []
  | index, line :: rest => do
    let item ← parse index line
    let items ← readLines parse (index + 1) rest
    return item.toList ++ items

def read (parse : Nat → List UInt8 → Except ε (Option R)) (bytes : List UInt8) : Except ε (List R) :=
  readLines parse 0 (lines bytes)

variable {parse : Nat → List UInt8 → Except ε (Option R)}

theorem readLines_cons_ok {line : List UInt8} {rest : List (List UInt8)} :
    readLines parse index (line :: rest) = .ok items ↔ ∃ item others, parse index line = .ok item ∧
      readLines parse (index + 1) rest = .ok others ∧ items = item.toList ++ others := by
  simp [readLines, pure, Except.pure, @eq_comm _ items]

theorem readLines_append_ok {left right : List (List UInt8)} :
    readLines parse index (left ++ right) = .ok items ↔
      ∃ before after, readLines parse index left = .ok before ∧
        readLines parse (index + left.length) right = .ok after ∧ items = before ++ after := by
  induction left generalizing index items with
  | nil => simp [readLines]
  | cons line rest ih =>
    have hnext : index + (line :: rest).length = index + 1 + rest.length := by
      rw [List.length_cons]
      omega
    rw [List.cons_append, hnext, readLines_cons_ok]
    constructor
    · rintro ⟨item, others, hitem, hothers, rfl⟩
      obtain ⟨before, after, hbefore, hafter, rfl⟩ := ih.mp hothers
      exact ⟨item.toList ++ before, after, readLines_cons_ok.mpr ⟨item, before, hitem, hbefore, rfl⟩, hafter,
        (List.append_assoc _ _ _).symm⟩
    · rintro ⟨_, after, hleft, hafter, rfl⟩
      obtain ⟨item, before, hitem, hbefore, rfl⟩ := readLines_cons_ok.mp hleft
      exact ⟨item, before ++ after, hitem, ih.mpr ⟨before, after, hbefore, hafter, rfl⟩, List.append_assoc _ _ _⟩

theorem readLines_mapError_ok {ε' : Type} {text : Nat → ε → ε'} {rows : List (List UInt8)} :
    readLines (fun index line => (parse index line).mapError (text index)) index rows = .ok items ↔
      readLines parse index rows = .ok items := by
  induction rows generalizing index items with
  | nil => simp [readLines]
  | cons line rest ih => simp only [readLines_cons_ok, mapError_eq_ok, ih]

/-- How records are written and read back: behind what is blank a record is read or refused, and a line with a
part of a record, or with more than one, is refused. -/
structure Format (encode : R → List UInt8) (parse : Nat → List UInt8 → Except ε (Option R)) : Prop where
  lineFeed : ∀ record, lineFeed ∉ encode record
  carriageReturn : ∀ record, carriageReturn ∉ encode record
  blank : ∀ index, parse index [] = .ok none
  whole : ∀ {index start} record, parse index start = .ok none →
    parse index (start ++ encode record) = .ok (some record) ∨
      ∃ error, parse index (start ++ encode record) = .error error
  cut : ∀ {index start part} record, parse index start = .ok none → part <+: encode record → part ≠ [] →
    part ≠ encode record → ∃ error, parse index (start ++ part) = .error error
  trailing : ∀ {index start part first} record, parse index start = .ok (some first) →
    part <+: encode record → part ≠ [] → ∃ error, parse index (start ++ part) = .error error

section Append

variable {encode : R → List UInt8} (format : Format encode parse)

include format

variable {tail part : List UInt8}

theorem Format.parse_tail {item : Option R} (record : R)
    (htail : parse index tail = .ok item) (hpart : part <+: encode record) (hne : part ≠ []) :
    (item = none ∧ parse index (tail ++ part) = .ok (some record)) ∨
      ∃ error, parse index (tail ++ part) = .error error := by
  cases item with
  | none =>
    by_cases hwhole : part = encode record
    · rw [hwhole]
      exact (format.whole record htail).imp (And.intro rfl) id
    · exact .inr (format.cut record htail hpart hne hwhole)
  | some first => exact .inr (format.trailing record htail hpart hne)

theorem Format.encode_ne_nil (record : R) : encode record ≠ [] := by
  intro hnil
  have hwhole := format.whole record (format.blank 0)
  rw [hnil, List.append_nil, format.blank] at hwhole
  rcases hwhole with hread | ⟨error, hrefused⟩
  · cases hread
  · cases hrefused

theorem Format.stripReturn_append (start : List UInt8) (record : R) :
    stripReturn (start ++ encode record) = start ++ encode record := by
  refine if_neg fun hlast => ?_
  rw [List.getLast?_append_of_ne_nil _ (format.encode_ne_nil record)] at hlast
  exact format.carriageReturn record (List.mem_of_getLast? hlast)

theorem Format.readLines_tail (h : readLines parse index (tailLine tail) = .ok items) :
    ∃ item, parse index tail = .ok item ∧ items = item.toList := by
  unfold tailLine at h
  split at h
  next hempty =>
    cases h
    rw [List.isEmpty_iff.mp hempty]
    exact ⟨none, format.blank index, rfl⟩
  next =>
    obtain ⟨item, _, hitem, hnone, rfl⟩ := readLines_cons_ok.mp h
    cases hnone
    exact ⟨item, hitem, List.append_nil _⟩

/-- A record of which something was appended to a readable log is read back as a whole, or the log cannot
be read any more. -/
theorem Format.read_append {log : List UInt8} {records : List R} (record : R) (h : read parse log = .ok records)
    (hpart : part <+: encode record ++ [LineLog.lineFeed]) (hne : part ≠ []) :
    read parse (log ++ part) = .ok (records ++ [record]) ∨ ∃ error, read parse (log ++ part) = .error error := by
  obtain ⟨before, after, hbefore, hafter, rfl⟩ := readLines_append_ok.mp h
  obtain ⟨item, hitem, rfl⟩ := format.readLines_tail hafter
  have hlast : ∀ line, (item = none ∧ parse (0 + (splitLines log []).1.length) line = .ok (some record)) ∨
      (∃ error, parse (0 + (splitLines log []).1.length) line = .error error) →
      lines (log ++ part) = (splitLines log []).1 ++ [line] →
      read parse (log ++ part) = .ok (before ++ item.toList ++ [record]) ∨
        ∃ error, read parse (log ++ part) = .error error := by
    intro line hline hlines
    unfold read
    rw [hlines]
    rcases hline with ⟨rfl, hparsed⟩ | ⟨error, hparsed⟩
    · refine .inl (readLines_append_ok.mpr ⟨before, [record], hbefore, ?_, by simp⟩)
      simp only [readLines, hparsed]
      rfl
    · refine .inr ?_
      cases hall : readLines parse 0 ((splitLines log []).1 ++ [line]) with
      | error error => exact ⟨error, rfl⟩
      | ok items =>
        obtain ⟨_, rest, _, hrest, _⟩ := readLines_append_ok.mp hall
        obtain ⟨_, _, hfound, _⟩ := readLines_cons_ok.mp hrest
        cases hparsed.symm.trans hfound
  by_cases hbody : part <+: encode record
  · have hplain : LineLog.lineFeed ∉ part := fun hmem => format.lineFeed record (hbody.subset hmem)
    refine hlast ((splitLines log []).2 ++ part) (format.parse_tail record hitem hbody hne) ?_
    unfold lines
    rw [splitLines_append, splitLines_plain hplain, List.append_nil, tailLine, if_neg]
    simp [hne]
  · obtain rfl : part = encode record ++ [LineLog.lineFeed] := by
      rcases List.prefix_concat_iff.mp hpart with heq | hshort
      · exact heq
      · exact absurd hshort hbody
    refine hlast ((splitLines log []).2 ++ encode record)
      (format.parse_tail record hitem (List.prefix_refl _) (format.encode_ne_nil record)) ?_
    have hended : splitLines (encode record ++ [LineLog.lineFeed]) (splitLines log []).2 =
        ([(splitLines log []).2 ++ encode record], []) := by
      rw [splitLines_append, splitLines_plain (format.lineFeed record)]
      simp only [splitLines, if_true, format.stripReturn_append, List.nil_append]
    unfold lines
    rw [splitLines_append, hended]
    simp [tailLine]

end Append

end LineLog
