import Mathlib.Data.List.Forall2
import EventScript.Command.Table

/-!
Mnemonics in either case. They are compared by their keys, and these are equal exactly if the
mnemonics are equal character by character, the case of ASCII letters aside. Other letters have no
case here.
-/

namespace EventScript

/-- The ASCII letters, each in upper and in lower case. -/
def asciiLetters : List (Char × Char) :=
  "ABCDEFGHIJKLMNOPQRSTUVWXYZ".toList.zip "abcdefghijklmnopqrstuvwxyz".toList

/-- The same character, or both cases of one ASCII letter. -/
def SameButCase (c d : Char) : Prop := c = d ∨ (c, d) ∈ asciiLetters ∨ (d, c) ∈ asciiLetters

/-- Equal character by character, the case of ASCII letters aside. -/
def EqIgnoringCase (a b : String) : Prop := List.Forall₂ SameButCase a.toList b.toList

theorem toUpper_of_mem_asciiLetters :
    ∀ letter ∈ asciiLetters, letter.1.toUpper = letter.1 ∧ letter.2.toUpper = letter.1 := by
  decide

theorem toLower_of_mem_asciiLetters : ∀ letter ∈ asciiLetters, letter.1.toLower = letter.2 := by
  decide

theorem toUpper_ascii : ∀ n < 128, (Char.ofNat n).toUpper = Char.ofNat n ∨
    ((Char.ofNat n).toUpper, Char.ofNat n) ∈ asciiLetters := by
  decide

/-- Upper case leaves a character as it is, or it is a small letter. -/
theorem toUpper_eq_or_mem (c : Char) : c.toUpper = c ∨ (c.toUpper, c) ∈ asciiLetters := by
  by_cases hascii : c.toNat < 128
  · have h := toUpper_ascii c.toNat hascii
    rwa [Char.ofNat_toNat] at h
  · have hsmall : ¬('a'.val ≤ c.val ∧ c.val ≤ 'z'.val) := fun h => hascii (by
      have hle : c.toNat ≤ 'z'.toNat := h.2
      exact Nat.lt_of_le_of_lt hle (by decide))
    exact .inl (dif_neg hsmall)

theorem toUpper_eq_iff {c d : Char} : c.toUpper = d.toUpper ↔ SameButCase c d := by
  constructor
  · intro h
    -- each is its own upper case or a small letter
    rcases toUpper_eq_or_mem c with hc | hc <;> rcases toUpper_eq_or_mem d with hd | hd
    · exact .inl (by rw [← hc, ← hd, h])
    · exact .inr (.inl (by rwa [← h, hc] at hd))
    · exact .inr (.inr (by rwa [h, hd] at hc))
    · have hlower := toLower_of_mem_asciiLetters _ hc
      rw [h, toLower_of_mem_asciiLetters _ hd] at hlower
      exact .inl hlower.symm
  · rintro (rfl | h | h)
    · rfl
    · obtain ⟨hc, hd⟩ := toUpper_of_mem_asciiLetters _ h
      rw [hc, hd]
    · obtain ⟨hd, hc⟩ := toUpper_of_mem_asciiLetters _ h
      rw [hc, hd]

/-- Mnemonics are compared ignoring case. -/
theorem Command.key_eq_iff {a b : String} : key a = key b ↔ EqIgnoringCase a b := by
  rw [key, key, String.ofList_inj, EqIgnoringCase, ← List.forall₂_eq_eq_eq,
    List.forall₂_map_left_iff, List.forall₂_map_right_iff]
  simp only [toUpper_eq_iff]

instance (a b : String) : Decidable (EqIgnoringCase a b) := decidable_of_iff _ Command.key_eq_iff

theorem EqIgnoringCase.trans {a b c : String} (hab : EqIgnoringCase a b)
    (hbc : EqIgnoringCase b c) : EqIgnoringCase a c :=
  Command.key_eq_iff.mp ((Command.key_eq_iff.mpr hab).trans (Command.key_eq_iff.mpr hbc))

theorem EqIgnoringCase.ne_empty {a b : String} (h : EqIgnoringCase a b) (hb : b ≠ "") : a ≠ "" := by
  rintro rfl
  exact hb (String.toList_eq_nil_iff.mp (List.forall₂_nil_left_iff.mp h))

end EventScript
