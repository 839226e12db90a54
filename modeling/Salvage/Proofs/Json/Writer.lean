import Salvage.Json.Writer
import Salvage.Proofs.Json.Span

/-! # Characters of written JSON

A number is written with the characters of numerals. Between quotes a character stands for
itself or is escaped, and only the letter of an escape may be a quote or a backslash.
-/

namespace Salvage.Json

variable {c : Char}

/-! ## Numbers -/

theorem isNumeralChar_of_mem_toDigits {n : Nat} (h : c ∈ Nat.toDigits 10 n) :
    isNumeralChar c = true :=
  isNumeralChar_of_isDigit (Nat.isDigit_of_mem_toDigits (by decide) (by decide) h)

theorem isNumeralChar_of_mem_zeros {n : Nat} (h : c ∈ List.replicate n '0') :
    isNumeralChar c = true := by
  rw [List.eq_of_mem_replicate h]
  rfl

theorem isNumeralChar_of_mem_positional {x : Decimal} (h : c ∈ x.positional) :
    isNumeralChar c = true := by
  simp only [Decimal.positional] at h
  split at h
  · simp only [List.mem_append, List.mem_cons, List.not_mem_nil, or_false] at h
    rcases h with (h | h) | rfl | rfl
    · exact isNumeralChar_of_mem_toDigits h
    · exact isNumeralChar_of_mem_zeros h
    · rfl
    · rfl
  · split at h
    · simp only [List.mem_append, List.mem_cons] at h
      rcases h with h | rfl | h
      · exact isNumeralChar_of_mem_toDigits (List.mem_of_mem_take h)
      · rfl
      · exact isNumeralChar_of_mem_toDigits (List.mem_of_mem_drop h)
    · simp only [List.cons_append, List.mem_append, List.mem_cons] at h
      rcases h with rfl | rfl | h | h
      · rfl
      · rfl
      · exact isNumeralChar_of_mem_zeros h
      · exact isNumeralChar_of_mem_toDigits h

theorem isNumeralChar_of_mem_scientific {x : Decimal} (h : c ∈ x.scientific) :
    isNumeralChar c = true := by
  simp only [Decimal.scientific, List.mem_append, List.mem_cons] at h
  rcases h with h | rfl | rfl | h
  · split at h
    · simp at h
    · rename_i d hd
      exact isNumeralChar_of_mem_toDigits (hd ▸ h)
    · rename_i d ds _ hd
      simp only [List.mem_cons] at h
      rcases h with rfl | rfl | h
      · exact isNumeralChar_of_mem_toDigits (hd ▸ List.mem_cons_self)
      · rfl
      · exact isNumeralChar_of_mem_toDigits (hd ▸ List.mem_cons_of_mem d h)
  · rfl
  · split <;> rfl
  · exact isNumeralChar_of_mem_toDigits h

theorem isNumeralChar_of_mem_binary {x : Binary64} (h : c ∈ x.write) : isNumeralChar c = true := by
  have hmagnitude : ∀ c ∈ if x.isZero then ['0', '.', '0'] else x.shortest.write,
      isNumeralChar c = true := by
    intro c hc
    split at hc
    · exact List.all_eq_true.mp (show ['0', '.', '0'].all isNumeralChar = true from rfl) c hc
    · simp only [Decimal.write] at hc
      split at hc
      · exact isNumeralChar_of_mem_positional hc
      · exact isNumeralChar_of_mem_scientific hc
  simp only [Binary64.write] at h
  split at h
  · rcases List.mem_cons.mp h with rfl | h
    · rfl
    · exact hmagnitude c h
  · exact hmagnitude c h

theorem isNumeralChar_of_mem_write {n : Number} (h : c ∈ n.write) : isNumeralChar c = true := by
  cases n with
  | integer i =>
    simp only [Number.write] at h
    split at h
    · rcases List.mem_cons.mp h with rfl | h
      · rfl
      · exact isNumeralChar_of_mem_toDigits h
    · exact isNumeralChar_of_mem_toDigits h
  | float x => exact isNumeralChar_of_mem_binary h

/-! ## Strings -/

/-- The character is no quote, no brace and no backslash. -/
def isInert (c : Char) : Bool := isCode c && c != '\\'

theorem isInert_digitChar {n : Nat} (hn : n < 16) : isInert (Nat.digitChar n) = true := by
  revert n
  decide

theorem isCode_of_shortEscape? {letter : Char} (hq : c ≠ '"') (h : shortEscape? c = some letter) :
    isCode letter = true := by
  unfold shortEscape? at h
  split at h
  · rename_i hc
    obtain rfl := hc.resolve_left hq
    obtain rfl := Option.some.inj h
    rfl
  · repeat' split at h
    all_goals cases h
    all_goals rfl

theorem ne_backslash_of_shortEscape? (h : shortEscape? c = none) : c ≠ '\\' := by
  rintro rfl
  simp [shortEscape?] at h

/-- A character other than a double quote is written as it is, or as an escape in which only
the letter may be a backslash. -/
theorem exists_of_writeChar (hq : c ≠ '"') : (writeChar c = [c] ∧ c ≠ '\\') ∨
    ∃ letter w, writeChar c = '\\' :: letter :: w ∧ isCode letter = true ∧
      ∀ d ∈ w, isInert d = true := by
  unfold writeChar
  split
  · rename_i letter h
    exact .inr ⟨letter, [], rfl, isCode_of_shortEscape? hq h, by simp⟩
  · rename_i h
    split
    · refine .inr ⟨'u', _, rfl, rfl, fun d hd => ?_⟩
      simp only [List.mem_cons, List.not_mem_nil, or_false] at hd
      rcases hd with rfl | rfl | rfl | rfl
      · rfl
      · rfl
      · exact isInert_digitChar (by omega)
      · exact isInert_digitChar (by omega)
    · exact .inl ⟨rfl, ne_backslash_of_shortEscape? h⟩

theorem escape_of_shortEscape? {letter : Char} (h : shortEscape? c = some letter) :
    escape [letter] = .ok (c, []) := by
  unfold shortEscape? at h
  split at h
  · rename_i hc
    obtain rfl := Option.some.inj h
    rcases hc with rfl | rfl <;> rfl
  · repeat' split at h
    all_goals cases h
    all_goals subst_vars
    all_goals rfl

theorem escape_control {n : Nat} (hn : n < 0x20) :
    escape ['u', '0', '0', Nat.digitChar (n / 16), Nat.digitChar (n % 16)] =
      .ok (Char.ofNat n, []) := by
  revert n
  decide +kernel

/-- A character is written as one that stands for itself or as its escape. -/
theorem isVerbatim_or_escape (c : Char) : (writeChar c = [c] ∧ IsVerbatim c) ∨
    ∃ w, writeChar c = '\\' :: w ∧ escape w = .ok (c, []) := by
  unfold writeChar
  split
  · rename_i letter h
    exact .inr ⟨[letter], rfl, escape_of_shortEscape? h⟩
  · rename_i h
    split
    · rename_i hcontrol
      exact .inr ⟨_, rfl, by rw [escape_control hcontrol, Char.ofNat_toNat]⟩
    · rename_i hcontrol
      have hquote : c ≠ '"' := by
        rintro rfl
        simp [shortEscape?] at h
      exact .inl ⟨rfl, hquote, ne_backslash_of_shortEscape? h, Nat.le_of_not_lt hcontrol⟩

end Salvage.Json
