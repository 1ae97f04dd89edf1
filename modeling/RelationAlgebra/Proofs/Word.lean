import RelationAlgebra.CommandLine.Run
import RelationAlgebra.Proofs.Format

/-!
# Words of the command line

A word is read as the narrowest atom that it can stand for, and an atom is shown as a word. What is
read shows itself as a word that is read in the same way, though not always as the word that it was
read from: `+007` is shown as `7`. Truth values and integers are read back from what they show, and
texts are unless they show one of these (`Atom.readsBack_text_iff`). So a candidate is read back
from its atoms with colons between them, if none of them shows a colon
(`CommandLine.words_read_back`).
-/

namespace RelationAlgebra

/-! ## Signed digits -/

namespace Decimal

variable {cs : List Char} {n : Nat} {i : Int}

/-- Whether characters are ASCII digits, one at least, behind one sign at most, and their value. -/
inductive Spells : List Char → Int → Prop where
  | unsigned {ds : List Char} (hne : ds ≠ []) (hds : ∀ c ∈ ds, c.isDigit) :
    Spells ds (Nat.ofDigitChars 10 ds 0)
  | plus {ds : List Char} (hne : ds ≠ []) (hds : ∀ c ∈ ds, c.isDigit) :
    Spells ('+' :: ds) (Nat.ofDigitChars 10 ds 0)
  | minus {ds : List Char} (hne : ds ≠ []) (hds : ∀ c ∈ ds, c.isDigit) :
    Spells ('-' :: ds) (-(Nat.ofDigitChars 10 ds 0))

theorem natural?_eq_some_iff :
    natural? cs = some n ↔
      cs ≠ [] ∧ (∀ c ∈ cs, c.isDigit) ∧ Nat.ofDigitChars 10 cs 0 = n := by
  unfold natural?
  have hcond : (!cs.isEmpty && cs.all Char.isDigit) = true ↔ cs ≠ [] ∧ ∀ c ∈ cs, c.isDigit := by
    simp
  by_cases h : cs ≠ [] ∧ ∀ c ∈ cs, c.isDigit
  · rw [if_pos (hcond.mpr h), Option.some.injEq]
    exact ⟨fun hn => ⟨h.1, h.2, hn⟩, fun hn => hn.2.2⟩
  · rw [if_neg (mt hcond.mp h)]
    exact ⟨fun hn => (nomatch hn), fun hn => absurd ⟨hn.1, hn.2.1⟩ h⟩

/-- Integers are read just from their spellings. -/
theorem parse?_eq_some_iff : parse? cs = some i ↔ Spells cs i := by
  constructor
  · intro h
    unfold parse? at h
    split at h
    all_goals
      simp only [Option.map_eq_some_iff, Option.bind_eq_bind, Option.bind_eq_some_iff] at h
      obtain ⟨_, ⟨n, hn, ⟨⟩⟩, rfl⟩ := h
      obtain ⟨hne, hds, rfl⟩ := natural?_eq_some_iff.mp hn
    · exact .minus hne hds
    · exact .plus hne hds
    · exact .unsigned hne hds
  · intro h
    cases h with
    | unsigned hne hds =>
      -- the first digit is no sign
      unfold parse?
      split
      next => exact absurd (hds '-' List.mem_cons_self) (by decide)
      next => exact absurd (hds '+' List.mem_cons_self) (by decide)
      next => simp [natural?_eq_some_iff.mpr ⟨hne, hds, rfl⟩]
    | plus hne hds | minus hne hds => simp [parse?, natural?_eq_some_iff.mpr ⟨hne, hds, rfl⟩]

theorem int64?_eq_some_iff {j : Int64} : int64? i = some j ↔ j.toInt = i := by
  constructor
  · intro h
    unfold int64? at h
    split at h
    next hbounds =>
      rw [← Option.some.inj h]
      exact Int64.toInt_ofInt_of_le (by omega) (by omega)
    next => cases h
  · rintro rfl
    exact int64?_toInt j

/-- The integers out of range are those that 64 bits do not hold. -/
theorem int64?_eq_none_iff :
    int64? i = none ↔ ¬ (-9223372036854775808 ≤ i ∧ i ≤ 9223372036854775807) := by
  unfold int64?
  split
  next h => simp [h]
  next h => simpa using h

end Decimal

/-! ## Words -/

namespace Atom

variable {word s : String} {i : Int64}

/-- Whether an atom is read from what it shows. -/
def ReadsBack (a : Atom) : Prop := ofWord a.display = a

instance (a : Atom) : Decidable a.ReadsBack := inferInstanceAs (Decidable (ofWord a.display = a))

/-- Whether a text is an optionally signed row of digits, worth an integer of 64 bits. -/
def SpellsInteger (s : String) : Prop :=
  ∃ i, Decimal.Spells s.toList i ∧ -9223372036854775808 ≤ i ∧ i ≤ 9223372036854775807

theorem integerWord?_eq_some_iff :
    integerWord? word = some i ↔ Decimal.Spells word.toList i.toInt := by
  simp only [integerWord?, Option.bind_eq_some_iff, Decimal.parse?_eq_some_iff,
    Decimal.int64?_eq_some_iff]
  constructor
  · rintro ⟨_, h, rfl⟩
    exact h
  · exact fun h => ⟨_, h, rfl⟩

/-- A word is no integer if it is not spelled as one or lies out of range. -/
theorem integerWord?_eq_none_iff : integerWord? word = none ↔ ¬ SpellsInteger word := by
  simp only [integerWord?, Option.bind_eq_none_iff, Decimal.parse?_eq_some_iff,
    Decimal.int64?_eq_none_iff, SpellsInteger, not_exists, not_and]

theorem ofWord_of_integerWord? (h : integerWord? word = some i) : ofWord word = int i := by
  rw [ofWord, h]

/-- Every integer is read back from its decimal form. -/
theorem readsBack_int (i : Int64) : (int i).ReadsBack := by
  refine ofWord_of_integerWord? (integerWord?_eq_some_iff.mpr ?_)
  rw [display, String.toList_ofList]
  exact Decimal.parse?_eq_some_iff.mp (Decimal.parse?_write i.toInt)

theorem readsBack_bool (b : Bool) : (bool b).ReadsBack := by
  cases b <;> rfl

/-- A text is read back unless it spells a truth value or an integer. -/
theorem readsBack_text_iff :
    (text s).ReadsBack ↔ s ≠ "true" ∧ s ≠ "false" ∧ ¬ SpellsInteger s := by
  rw [ReadsBack, display, ← integerWord?_eq_none_iff, ofWord]
  cases integerWord? s with
  | some i => simp
  | none =>
    by_cases htrue : s = "true"
    · simp [htrue]
    · by_cases hfalse : s = "false"
      · simp [hfalse]
      · simp [htrue, hfalse]

/-- What a word is read as is read back. -/
theorem readsBack_ofWord (word : String) : (ofWord word).ReadsBack := by
  cases h : ofWord word with
  | bool b => exact readsBack_bool b
  | int i => exact readsBack_int i
  | text s =>
    -- a word that is read as a text is that text
    have hs : s = word := by
      rw [ofWord] at h
      split at h
      next => cases h
      next =>
        split at h
        next => cases h
        next =>
          split at h
          next => cases h
          next => exact (Atom.text.inj h).symm
    rw [ReadsBack, display, hs, h, hs]

end Atom

/-! ## Candidates -/

namespace Text

variable {separator : Char} {part : List Char} {parts : List (List Char)}

/-- A text is split at its first separator. -/
theorem split_append_cons (h : separator ∉ part) (cs : List Char) :
    split separator (part ++ separator :: cs) = part :: split separator cs := by
  induction part with
  | nil => rw [List.nil_append, split, if_pos rfl]
  | cons c part ih =>
    rw [List.mem_cons, not_or] at h
    rw [List.cons_append, split, if_neg (Ne.symm h.1), ih h.2]

theorem split_eq_singleton (h : separator ∉ part) : split separator part = [part] := by
  induction part with
  | nil => rfl
  | cons c part ih =>
    rw [List.mem_cons, not_or] at h
    rw [split, if_neg (Ne.symm h.1), ih h.2]

/-- Parts that hold no separator are found again between separators. -/
theorem split_intercalate (hne : parts ≠ []) (h : ∀ part ∈ parts, separator ∉ part) :
    split separator ([separator].intercalate parts) = parts := by
  induction parts with
  | nil => exact absurd rfl hne
  | cons part parts ih =>
    rw [List.forall_mem_cons] at h
    cases parts with
    | nil => rw [List.intercalate_singleton, split_eq_singleton h.1]
    | cons next parts =>
      rw [List.intercalate_cons_cons, List.append_assoc, List.singleton_append,
        split_append_cons h.1, ih (by simp) h.2]

end Text

namespace CommandLine

variable {atoms : List Atom}

/-- A candidate has one atom more than colons. -/
theorem length_tupleOfCandidate (candidate : String) :
    (tupleOfCandidate candidate).length = candidate.toList.count ':' + 1 := by
  simp [tupleOfCandidate, tupleOfWords, Text.splitAt, Text.length_split]

/-- Atoms that read back and show no colon are read back from their candidate. -/
theorem tupleOfCandidate_intercalate (hne : atoms ≠ [])
    (h : ∀ a ∈ atoms, a.ReadsBack ∧ ':' ∉ a.display.toList) :
    tupleOfCandidate (":".intercalate (atoms.map Atom.display)) = atoms := by
  have hparts : Text.splitAt ':' (":".intercalate (atoms.map Atom.display)) =
      atoms.map Atom.display := by
    have hcolon : ":".toList = [':'] := rfl
    have hwords : ∀ word ∈ (atoms.map Atom.display).map String.toList, ':' ∉ word := by
      simpa using fun a ha => (h a ha).2
    have hsplit := Text.split_intercalate (by simpa using hne) hwords
    rw [Text.splitAt, String.toList_intercalate, hcolon, hsplit, List.map_map]
    simp
  rw [tupleOfCandidate, tupleOfWords, hparts, List.map_map]
  exact (List.map_congr_left fun a ha => (h a ha).1).trans (List.map_id atoms)

/-- Reading words and showing atoms. What a word is read as is read back from what it shows, and so
are truth values, integers, and all texts but those that spell one of these. Several atoms that are
read back are so together, as a candidate, if none of them shows a colon; a candidate always has one
slot more than it has colons. -/
theorem words_read_back :
    (∀ word, (Atom.ofWord word).ReadsBack) ∧
      (∀ b, (Atom.bool b).ReadsBack) ∧
      (∀ i, (Atom.int i).ReadsBack) ∧
      (∀ s, (Atom.text s).ReadsBack ↔ s ≠ "true" ∧ s ≠ "false" ∧ ¬ Atom.SpellsInteger s) ∧
      (∀ atoms : List Atom, atoms ≠ [] →
        (∀ a ∈ atoms, a.ReadsBack ∧ ':' ∉ a.display.toList) →
        tupleOfCandidate (":".intercalate (atoms.map Atom.display)) = atoms) ∧
      ∀ candidate, (tupleOfCandidate candidate).length = candidate.toList.count ':' + 1 :=
  ⟨Atom.readsBack_ofWord, Atom.readsBack_bool, Atom.readsBack_int,
    fun _ => Atom.readsBack_text_iff, fun _ => tupleOfCandidate_intercalate,
    length_tupleOfCandidate⟩

/-- Both limits of the integers, the integers next to them that are texts, signs without digits, no
characters at all, and a word of which only the case of a letter makes a text. -/
def limits : List Atom :=
  [.int (-9223372036854775808), .text "-9223372036854775809", .int 9223372036854775807,
    .text "+9223372036854775808", .text "-", .text "+", .text "", .text "True", .bool true]

theorem words_read_back_limits :
    (∀ a ∈ limits, a.ReadsBack ∧ ':' ∉ a.display.toList) ∧
      ":".intercalate (limits.map Atom.display) =
        "-9223372036854775808:-9223372036854775809:9223372036854775807:+9223372036854775808:-:+" ++
          "::True:true" ∧
      tupleOfCandidate (":".intercalate (limits.map Atom.display)) = limits ∧
      Atom.ofWord "+007" = .int 7 ∧ ¬ (Atom.text "+007").ReadsBack := by
  have hlimits : ∀ a ∈ limits, a.ReadsBack ∧ ':' ∉ a.display.toList := by decide +kernel
  have hdigits : ∀ c ∈ "007".toList, c.isDigit := List.all_eq_true.mp (by decide +kernel)
  have hsigned : Atom.SpellsInteger "+007" :=
    ⟨7, .plus (by decide) hdigits, by decide, by decide⟩
  exact ⟨hlimits, by decide +kernel, words_read_back.2.2.2.2.1 limits (by simp [limits]) hlimits,
    by decide +kernel, fun h => ((words_read_back.2.2.2.1 "+007").mp h).2.2 hsigned⟩

end CommandLine

end RelationAlgebra
