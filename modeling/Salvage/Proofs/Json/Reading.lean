import Salvage.Json.Reader

/-! # When reading succeeds

Each reader of values succeeds on just the texts that its part of the grammar describes.
The parts are relations between a text, what is read from its start, and what is left.
-/

namespace Salvage.Json

theorem keyword_eq_ok_iff {ws s r : List Char} {v w : Value} :
    keyword ws v s = .ok (w, r) ↔ s = ws ++ r ∧ v = w := by
  fun_induction keyword ws v s with
  | case1 v s => simp [and_comm]
  | case2 => simp
  | case3 c ws v s ih => simpa using ih
  | case4 w ws v c s hc => simp [hc]

section

variable {item : Reader Value} {item? : Option (Reader Value)} {s t u r : List Char}
  {v : Value} {vs : List Value} {m : String × Value} {ms : Members}

/-- The items of a list, from the first one on. -/
inductive ItemsRead (item : Reader Value) : List Char → List Value → List Char → Prop where
  | last {s t r : List Char} {v : Value} (hv : item.run s = .ok (v, t))
      (ht : skipSpace t = ']' :: r) : ItemsRead item s [v] r
  | more {s t u r : List Char} {v : Value} {vs : List Value} (hv : item.run s = .ok (v, t))
      (ht : skipSpace t = ',' :: u) (hu : (skipSpace u).head? ≠ some ']')
      (h : ItemsRead item u vs r) : ItemsRead item s (v :: vs) r

theorem items_eq_ok_iff : items item s = .ok (vs, r) ↔ ItemsRead item s vs r := by
  constructor
  · intro h
    fun_induction items item s generalizing vs with
    | case1 => simp at h
    | case2 => simp at h
    | case3 s v t hv u ht =>
      obtain ⟨rfl, rfl⟩ := Prod.mk.inj (Except.ok.inj h)
      exact .last hv ht
    | case4 => simp at h
    | case5 s v t hv u hu ht _ ih =>
      obtain ⟨vs, hvs, rfl⟩ := mapRead_eq_ok_iff.1 h
      refine .more hv ht (fun hhead => ?_) (ih hvs)
      obtain ⟨w, hw⟩ := List.head?_eq_some_iff.mp hhead
      exact hu w hw
    | case6 => simp at h
  · intro h
    induction h with
    | last hv ht =>
      rw [items]
      split
      · simp_all
      · rename_i w x hw
        obtain ⟨rfl, rfl⟩ : _ = w ∧ _ = x := by simpa [hv] using hw
        split <;> simp_all
    | @more s t u r v vs hv ht hu _ ih =>
      rw [items]
      split
      · simp_all
      · rename_i w x hw
        obtain ⟨rfl, rfl⟩ : v = w ∧ t = x := by simpa [hv] using hw
        split
        · simp_all
        · rename_i c y hy
          obtain ⟨rfl, rfl⟩ : ',' = c ∧ u = y := by simpa [ht] using hy
          rw [if_neg (by decide), if_pos rfl]
          split
          · simp_all
          · rw [ih, mapRead]

/-- A list, from behind its opening bracket. -/
inductive ListRead (item : Reader Value) : List Char → List Value → List Char → Prop where
  | nil {s r : List Char} (hs : skipSpace s = ']' :: r) : ListRead item s [] r
  | items {s r : List Char} {vs : List Value} (hs : (skipSpace s).head? ≠ some ']')
      (h : ItemsRead item (skipSpace s) vs r) : ListRead item s vs r

theorem ItemsRead.ne_nil (h : ItemsRead item s vs r) : s ≠ [] := by
  rintro rfl
  have := items_length_lt (items_eq_ok_iff.mpr h)
  simp at this

theorem list_eq_ok_iff : list item s = .ok (vs, r) ↔ ListRead item s vs r := by
  constructor
  · intro h
    unfold list at h
    split at h
    · simp at h
    · rename_i c t ht
      split at h
      · rename_i hc
        obtain ⟨rfl, rfl⟩ := Prod.mk.inj (Except.ok.inj h)
        exact .nil (hc ▸ ht)
      · rename_i hc
        refine .items (by simpa [ht] using hc) ?_
        rw [ht]
        exact items_eq_ok_iff.mp h
  · intro h
    cases h with
    | nil hs => simp [list, hs]
    | items hs h =>
      rw [list]
      split
      · rename_i hnil
        exact absurd hnil h.ne_nil
      · rename_i c t ht
        rw [ht] at hs h
        rw [if_neg (by simpa using hs)]
        exact items_eq_ok_iff.mpr h

/-- A key and its value. -/
inductive MemberRead (item : Reader Value) :
    List Char → String × Value → List Char → Prop where
  | mk {s t u r k : List Char} {v : Value} (hk : quoted s = .ok (k, t))
      (ht : skipSpace t = ':' :: u) (hv : item.run u = .ok (v, r)) :
      MemberRead item ('"' :: s) (String.ofList k, v) r

theorem member_eq_ok_iff : member item s = .ok (m, r) ↔ MemberRead item s m r := by
  constructor
  · intro h
    cases s with
    | nil => simp [member] at h
    | cons c s =>
      simp only [member, bind, Except.bind] at h
      split at h
      · rename_i hc
        obtain rfl := hc
        split at h
        · simp at h
        · rename_i x hk
          split at h
          · simp [throw, throwThe, MonadExceptOf.throw] at h
          · rename_i d u hu
            split at h
            · rename_i hd
              obtain rfl := hd
              split at h
              · simp at h
              · rename_i y hv
                obtain ⟨rfl, rfl⟩ := Prod.mk.inj (Except.ok.inj h)
                exact .mk hk hu hv
            · simp [throw, throwThe, MonadExceptOf.throw] at h
      · simp at h
  · rintro ⟨hk, ht, hv⟩
    simp [member, hk, ht, hv, bind, Except.bind, pure, Except.pure]

/-- The members of an object, from the first key on. -/
inductive MembersRead (item : Reader Value) : List Char → Members → List Char → Prop where
  | last {s t r : List Char} {m : String × Value} (hm : MemberRead item s m t)
      (ht : skipSpace t = '}' :: r) : MembersRead item s [m] r
  | more {s t u r : List Char} {m : String × Value} {ms : Members} (hm : MemberRead item s m t)
      (ht : skipSpace t = ',' :: u) (h : MembersRead item (skipSpace u) ms r) :
      MembersRead item s (m :: ms) r

theorem MemberRead.head? (h : MemberRead item s m r) : s.head? = some '"' := by
  cases h
  rfl

theorem MembersRead.head? (h : MembersRead item s ms r) : s.head? = some '"' := by
  cases h with
  | last hm _ => exact hm.head?
  | more hm _ _ => exact hm.head?

theorem members_eq_ok_iff : members item s = .ok (ms, r) ↔ MembersRead item s ms r := by
  constructor
  · intro h
    fun_induction members item s generalizing ms with
    | case1 => simp at h
    | case2 => simp at h
    | case3 s m t hm u ht =>
      obtain ⟨rfl, rfl⟩ := Prod.mk.inj (Except.ok.inj h)
      exact .last (member_eq_ok_iff.mp hm) ht
    | case4 => simp at h
    | case5 s m t hm u _ ht _ ih =>
      obtain ⟨ms, hms, rfl⟩ := mapRead_eq_ok_iff.1 h
      exact .more (member_eq_ok_iff.mp hm) ht (ih hms)
    | case6 => simp at h
  · intro h
    induction h with
    | last hm ht =>
      have hm := member_eq_ok_iff.mpr hm
      rw [members]
      split
      · simp_all
      · rename_i w x hw
        obtain ⟨rfl, rfl⟩ : _ = w ∧ _ = x := by simpa [hm] using hw
        split <;> simp_all
    | @more s t u r m ms hm ht h ih =>
      have hm := member_eq_ok_iff.mpr hm
      have hhead := h.head?
      rw [members]
      split
      · simp_all
      · rename_i w x hw
        obtain ⟨rfl, rfl⟩ : m = w ∧ t = x := by simpa [hm] using hw
        split
        · simp_all
        · rename_i c y hy
          obtain ⟨rfl, rfl⟩ : ',' = c ∧ u = y := by simpa [ht] using hy
          rw [if_neg (by decide), if_pos rfl]
          split
          · simp_all
          · rw [ih, mapRead]

/-- An object, from behind its opening brace. -/
inductive ObjectRead (item : Reader Value) : List Char → Members → List Char → Prop where
  | nil {s r : List Char} (hs : skipSpace s = '}' :: r) : ObjectRead item s [] r
  | members {s r : List Char} {ms : Members} (h : MembersRead item (skipSpace s) ms r) :
      ObjectRead item s ms r

theorem object_eq_ok_iff : object item s = .ok (ms, r) ↔ ObjectRead item s ms r := by
  constructor
  · intro h
    unfold object at h
    split at h
    · simp at h
    · rename_i c t ht
      split at h
      · rename_i hc
        obtain ⟨rfl, rfl⟩ := Prod.mk.inj (Except.ok.inj h)
        exact .nil (hc ▸ ht)
      · apply ObjectRead.members
        rw [ht]
        exact members_eq_ok_iff.mp h
  · intro h
    cases h with
    | nil hs => simp [object, hs]
    | members h =>
      have hhead := h.head?
      rw [object]
      split
      · simp_all
      · rename_i c t ht
        rw [ht] at h hhead
        rw [if_neg (by simp_all)]
        exact members_eq_ok_iff.mpr h

/-- A value from its first character on. Lists and objects need a reader for what they hold. -/
inductive ValueRead (item? : Option (Reader Value)) :
    List Char → Value → List Char → Prop where
  | null (r : List Char) : ValueRead item? ('n' :: 'u' :: 'l' :: 'l' :: r) .null r
  | boolTrue (r : List Char) : ValueRead item? ('t' :: 'r' :: 'u' :: 'e' :: r) (.bool true) r
  | boolFalse (r : List Char) :
      ValueRead item? ('f' :: 'a' :: 'l' :: 's' :: 'e' :: r) (.bool false) r
  | string {s r k : List Char} (h : quoted s = .ok (k, r)) :
      ValueRead item? ('"' :: s) (.string (String.ofList k)) r
  | negative {s r : List Char} {n : Number} (h : numeral true s = .ok (n, r)) :
      ValueRead item? ('-' :: s) (.number n) r
  | number {c : Char} {s r : List Char} {n : Number} (hc : c.isDigit = true)
      (h : numeral false (c :: s) = .ok (n, r)) : ValueRead item? (c :: s) (.number n) r
  | array {item : Reader Value} {s r : List Char} {vs : List Value} (hi : item? = some item)
      (h : ListRead item s vs r) : ValueRead item? ('[' :: s) (.array vs) r
  | object {item : Reader Value} {s r : List Char} {ms : Members} (hi : item? = some item)
      (h : ObjectRead item s ms r) :
      ValueRead item? ('{' :: s) (.object (Members.ofList ms)) r

theorem nested_eq_ok_iff {c : Char} (hc : c = '[' ∨ c = '{') :
    nested item? c s = .ok (v, r) ↔ ValueRead item? (c :: s) v r := by
  constructor
  · intro h
    unfold nested at h
    split at h
    · simp at h
    · split at h
      · rename_i hl
        obtain rfl := hl
        obtain ⟨vs, hvs, rfl⟩ := mapRead_eq_ok_iff.1 h
        exact .array rfl (list_eq_ok_iff.mp hvs)
      · rename_i hl
        obtain rfl := hc.resolve_left hl
        obtain ⟨ms, hms, rfl⟩ := mapRead_eq_ok_iff.1 h
        exact .object rfl (object_eq_ok_iff.mp hms)
  · intro h
    cases h with
    | array hi h => simp [nested, hi, list_eq_ok_iff.mpr h, mapRead]
    | object hi h => simp [nested, hi, object_eq_ok_iff.mpr h, mapRead]
    | number hd => rcases hc with rfl | rfl <;> simp at hd
    | _ => simp at hc

theorem valueFrom_eq_ok_iff {c : Char} :
    valueFrom item? c s = .ok (v, r) ↔ ValueRead item? (c :: s) v r := by
  constructor
  · intro h
    unfold valueFrom at h
    split at h
    · obtain ⟨rfl, rfl⟩ := keyword_eq_ok_iff.mp h
      subst ‹c = 'n'›
      exact .null r
    split at h
    · obtain ⟨rfl, rfl⟩ := keyword_eq_ok_iff.mp h
      subst ‹c = 't'›
      exact .boolTrue r
    split at h
    · obtain ⟨rfl, rfl⟩ := keyword_eq_ok_iff.mp h
      subst ‹c = 'f'›
      exact .boolFalse r
    split at h
    · obtain ⟨k, hk, rfl⟩ := mapRead_eq_ok_iff.1 h
      subst ‹c = '"'›
      exact .string hk
    split at h
    · obtain ⟨n, hn, rfl⟩ := mapRead_eq_ok_iff.1 h
      subst ‹c = '-'›
      exact .negative hn
    split at h
    · obtain ⟨n, hn, rfl⟩ := mapRead_eq_ok_iff.1 h
      exact .number ‹_› hn
    split at h
    · exact (nested_eq_ok_iff ‹_›).mp h
    · simp at h
  · intro h
    cases h with
    | null => rfl
    | boolTrue => rfl
    | boolFalse => rfl
    | string h => simp [valueFrom, h, mapRead]
    | negative h => simp [valueFrom, h, mapRead]
    | number hc h =>
      have hne : ∀ d : Char, d.isDigit = false → c ≠ d := by
        rintro d hd rfl
        simp [hc] at hd
      simp [valueFrom, hc, h, mapRead, hne 'n' rfl, hne 't' rfl, hne 'f' rfl, hne '"' rfl,
        hne '-' rfl]
    | array hi h => exact (nested_eq_ok_iff (.inl rfl)).mpr (.array hi h)
    | object hi h => exact (nested_eq_ok_iff (.inr rfl)).mpr (.object hi h)

theorem ValueRead.ne_nil (h : ValueRead item? s v r) : s ≠ [] := by
  cases h <;> simp

theorem valueWith_eq_ok_iff :
    (valueWith item?).run s = .ok (v, r) ↔ ValueRead item? (skipSpace s) v r := by
  simp only [valueWith, valueBehindSpace]
  split
  · rename_i hs
    exact ⟨fun h => by simp at h, fun h => absurd hs h.ne_nil⟩
  · rename_i c t hs
    rw [hs]
    exact valueFrom_eq_ok_iff

/-- What carries over from a reader to the reader of one level more holds of all levels. -/
theorem value_induction {P : Reader Value → Prop}
    (h : ∀ item? : Option (Reader Value), (∀ item ∈ item?, P item) → P (valueWith item?))
    (n : Nat) : P (value n) := by
  induction n with
  | zero => exact h none (by simp)
  | succ n ih => exact h (some (value n)) (by simpa using ih)

theorem read_eq_ok_iff :
    read s = .ok v ↔ ∃ r, (value nestingLimit).run s = .ok (v, r) ∧ skipSpace r = [] := by
  simp only [read, bind, Except.bind]
  constructor
  · intro h
    split at h
    · simp at h
    · rename_i x hx
      split at h
      · rename_i hr
        obtain rfl := Except.ok.inj h
        exact ⟨x.2, hx, hr⟩
      · simp [throw, throwThe, MonadExceptOf.throw] at h
  · rintro ⟨r, hv, hr⟩
    simp [hv, hr, pure, Except.pure]

end

end Salvage.Json
