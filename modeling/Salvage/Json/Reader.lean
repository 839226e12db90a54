import Salvage.Json.Numeral
import Salvage.Json.StringLiteral

/-! # Reading JSON

A reader takes a value from the start of a text and leaves less text than it was given.
`value n` reads a value with at most `n` lists and objects around each other, and is made
from the reader with one level less, so that reading ends by the level, and a list or an
object by the length of the text.
-/

namespace Salvage.Json

structure Reader (α : Type) where
  run : List Char → Except Failure (α × List Char)
  shorter : ∀ {s a r}, run s = .ok (a, r) → r.length < s.length

/-- The four characters that may stand between the parts of a text. -/
def isSpace (c : Char) : Bool := c == ' ' || c == '\t' || c == '\n' || c == '\r'

def skipSpace (s : List Char) : List Char := s.dropWhile isSpace

theorem skipSpace_length_le (s : List Char) : (skipSpace s).length ≤ s.length :=
  length_dropWhile_le s

/-- Reads on to the end of a keyword that stands for a value. -/
def keyword : List Char → Value → List Char → Except Failure (Value × List Char)
  | [], v, s => .ok (v, s)
  | _ :: _, _, [] => .error (.before .endInValue [])
  | w :: ws, v, c :: s =>
    if c = w then keyword ws v s else .error (.behindFirst .keywordExpected (c :: s))

theorem keyword_length_le {ws s r : List Char} {w v : Value}
    (h : keyword ws w s = .ok (v, r)) : r.length ≤ s.length := by
  fun_induction keyword ws w s with
  | case1 => simp_all
  | case2 => simp at h
  | case3 w ws s _ ih => exact Nat.le_succ_of_le (ih h)
  | case4 => simp at h

/-- The items of a list, from the first one on, and what follows the closing bracket. -/
def items (item : Reader Value) (s : List Char) : Except Failure (List Value × List Char) :=
  match _h : item.run s with
  | .error e => .error e
  | .ok (v, r) =>
    match _hr : skipSpace r with
    | [] => .error (.before .endInList [])
    | c :: t =>
      if c = ']' then .ok ([v], t)
      else if c = ',' then
        match skipSpace t with
        | ']' :: u => .error (.behindFirst .trailingComma (']' :: u))
        | _ => mapRead (v :: ·) (items item t)
      else .error (.behindFirst .listEndExpected (c :: t))
termination_by s.length
decreasing_by
  have := item.shorter _h
  have := skipSpace_length_le r
  simp only [_hr, List.length_cons] at this; omega

/-- A list, from behind its opening bracket. -/
def list (item : Reader Value) (s : List Char) : Except Failure (List Value × List Char) :=
  match skipSpace s with
  | [] => .error (.before .endInList [])
  | c :: r => if c = ']' then .ok ([], r) else items item (c :: r)

/-- A key and its value. -/
def member (item : Reader Value) (s : List Char) :
    Except Failure ((String × Value) × List Char) :=
  match s with
  | [] => .error (.before .endInValue [])
  | c :: r =>
    if c = '"' then do
      let (key, t) ← quoted r
      match skipSpace t with
      | [] => throw (.before .endInObject [])
      | d :: u =>
        if d = ':' then
          let (v, w) ← item.run u
          return ((String.ofList key, v), w)
        else throw (.behindFirst .colonExpected (d :: u))
    else .error (.behindFirst .keyNotString (c :: r))

theorem member_length_lt {item : Reader Value} {s r : List Char} {m : String × Value}
    (h : member item s = .ok (m, r)) : r.length < s.length := by
  cases s with
  | nil => simp [member] at h
  | cons c t =>
    simp only [member, bind, Except.bind] at h
    split at h
    · split at h
      · simp at h
      · rename_i x hx
        have hquoted := quoted_length_lt hx
        have hspace := skipSpace_length_le x.2
        split at h
        · simp [throw, throwThe, MonadExceptOf.throw] at h
        · rename_i d u hu
          simp only [hu, List.length_cons] at hspace
          split at h
          · split at h
            · simp at h
            · rename_i y hy
              have hitem := item.shorter hy
              obtain ⟨-, rfl⟩ := Prod.mk.inj (Except.ok.inj h)
              simp only [List.length_cons]; omega
          · simp [throw, throwThe, MonadExceptOf.throw] at h
    · simp at h

/-- The members of an object, from the first key on, and what follows the closing brace. -/
def members (item : Reader Value) (s : List Char) : Except Failure (Members × List Char) :=
  match _h : member item s with
  | .error e => .error e
  | .ok (m, r) =>
    match _hr : skipSpace r with
    | [] => .error (.before .endInObject [])
    | c :: t =>
      if c = '}' then .ok ([m], t)
      else if c = ',' then
        match skipSpace t with
        | '}' :: u => .error (.behindFirst .trailingComma ('}' :: u))
        | _ => mapRead (m :: ·) (members item (skipSpace t))
      else .error (.behindFirst .objectEndExpected (c :: t))
termination_by s.length
decreasing_by
  have := member_length_lt _h
  have := skipSpace_length_le r
  have := skipSpace_length_le t
  simp only [_hr, List.length_cons] at *; omega

/-- An object, from behind its opening brace. -/
def object (item : Reader Value) (s : List Char) : Except Failure (Members × List Char) :=
  match skipSpace s with
  | [] => .error (.before .endInObject [])
  | c :: r => if c = '}' then .ok ([], r) else members item (c :: r)

theorem items_length_lt {item : Reader Value} {s r : List Char} {vs : List Value}
    (h : items item s = .ok (vs, r)) : r.length < s.length := by
  fun_induction items item s generalizing vs with
  | case1 => simp at h
  | case2 => simp at h
  | case3 s v t hv u hu =>
    have := item.shorter hv
    have := skipSpace_length_le t
    simp only [Except.ok.injEq, Prod.mk.injEq] at h
    simp only [hu, List.length_cons] at this
    rw [← h.2]; omega
  | case4 => simp at h
  | case5 s v t hv u _ hu _ ih =>
    obtain ⟨_, hw, -⟩ := mapRead_eq_ok_iff.1 h
    have := item.shorter hv
    have := skipSpace_length_le t
    have := ih hw
    simp only [hu, List.length_cons] at *; omega
  | case6 => simp at h

theorem list_length_le {item : Reader Value} {s r : List Char} {vs : List Value}
    (h : list item s = .ok (vs, r)) : r.length ≤ s.length := by
  have hspace := skipSpace_length_le s
  simp only [list] at h
  split at h
  · simp at h
  · rename_i c t ht
    simp only [ht, List.length_cons] at hspace
    split at h
    · simp only [Except.ok.injEq, Prod.mk.injEq] at h
      rw [← h.2]; omega
    · have := items_length_lt h
      simp only [List.length_cons] at this; omega

theorem members_length_lt {item : Reader Value} {s r : List Char} {ms : Members}
    (h : members item s = .ok (ms, r)) : r.length < s.length := by
  fun_induction members item s generalizing ms with
  | case1 => simp at h
  | case2 => simp at h
  | case3 s m t hm u hu =>
    have := member_length_lt hm
    have := skipSpace_length_le t
    simp only [Except.ok.injEq, Prod.mk.injEq] at h
    simp only [hu, List.length_cons] at this
    rw [← h.2]; omega
  | case4 => simp at h
  | case5 s m t hm u _ hu _ ih =>
    obtain ⟨_, hw, -⟩ := mapRead_eq_ok_iff.1 h
    have := member_length_lt hm
    have := skipSpace_length_le t
    have := skipSpace_length_le u
    have := ih hw
    simp only [hu, List.length_cons] at *; omega
  | case6 => simp at h

theorem object_length_le {item : Reader Value} {s r : List Char} {ms : Members}
    (h : object item s = .ok (ms, r)) : r.length ≤ s.length := by
  have hspace := skipSpace_length_le s
  simp only [object] at h
  split at h
  · simp at h
  · rename_i c t ht
    simp only [ht, List.length_cons] at hspace
    split at h
    · simp only [Except.ok.injEq, Prod.mk.injEq] at h
      rw [← h.2]; omega
    · have := members_length_lt h
      simp only [List.length_cons] at this; omega

/-- A list or an object, from its opening bracket on. Without a reader for what it holds
it is nested too deeply. -/
def nested (item? : Option (Reader Value)) (c : Char) (r : List Char) :
    Except Failure (Value × List Char) :=
  match item? with
  | none => .error (.behindFirst .nestedTooDeeply (c :: r))
  | some item =>
    if c = '[' then mapRead .array (list item r)
    else mapRead (.object ∘ Members.ofList) (object item r)

/-- A value that starts with the character `c`. -/
def valueFrom (item? : Option (Reader Value)) (c : Char) (r : List Char) :
    Except Failure (Value × List Char) :=
  if c = 'n' then keyword ['u', 'l', 'l'] (.null) r
  else if c = 't' then keyword ['r', 'u', 'e'] (.bool true) r
  else if c = 'f' then keyword ['a', 'l', 's', 'e'] (.bool false) r
  else if c = '"' then mapRead (.string ∘ String.ofList) (quoted r)
  else if c = '-' then mapRead .number (numeral true r)
  else if c.isDigit then mapRead .number (numeral false (c :: r))
  else if c = '[' ∨ c = '{' then nested item? c r
  else .error (.behindFirst .valueExpected (c :: r))

theorem nested_length_le {item? : Option (Reader Value)} {c : Char} {r t : List Char} {v : Value}
    (h : nested item? c r = .ok (v, t)) : t.length ≤ r.length := by
  simp only [nested] at h
  split at h
  · simp at h
  · split at h
    · obtain ⟨_, hr, -⟩ := mapRead_eq_ok_iff.1 h
      exact list_length_le hr
    · obtain ⟨_, hr, -⟩ := mapRead_eq_ok_iff.1 h
      exact object_length_le hr

theorem valueFrom_length_le {item? : Option (Reader Value)} {c : Char} {r t : List Char}
    {v : Value} (h : valueFrom item? c r = .ok (v, t)) : t.length ≤ r.length := by
  unfold valueFrom at h
  split at h
  · exact keyword_length_le h
  split at h
  · exact keyword_length_le h
  split at h
  · exact keyword_length_le h
  split at h
  · obtain ⟨_, hr, -⟩ := mapRead_eq_ok_iff.1 h
    exact Nat.le_of_lt (quoted_length_lt hr)
  split at h
  · obtain ⟨_, hr, -⟩ := mapRead_eq_ok_iff.1 h
    exact Nat.le_of_lt (numeral_length_lt hr)
  split at h
  · obtain ⟨_, hr, -⟩ := mapRead_eq_ok_iff.1 h
    exact Nat.le_of_lt_succ (numeral_length_lt hr)
  split at h
  · exact nested_length_le h
  · simp at h

/-- Reads a value behind spaces. -/
def valueBehindSpace (item? : Option (Reader Value)) (s : List Char) :
    Except Failure (Value × List Char) :=
  match skipSpace s with
  | [] => .error (.before .endInValue [])
  | c :: r => valueFrom item? c r

theorem valueBehindSpace_length_lt {item? : Option (Reader Value)} {s r : List Char} {v : Value}
    (h : valueBehindSpace item? s = .ok (v, r)) : r.length < s.length := by
  have hspace := skipSpace_length_le s
  simp only [valueBehindSpace] at h
  split at h
  · simp at h
  · rename_i c t ht
    have := valueFrom_length_le h
    simp only [ht, List.length_cons] at hspace
    omega

/-- The reader of a value, given the reader of what lists and objects hold. -/
def valueWith (item? : Option (Reader Value)) : Reader Value :=
  ⟨valueBehindSpace item?, valueBehindSpace_length_lt⟩

/-- The reader of a value with at most `depth` lists and objects around each other. -/
def value : Nat → Reader Value
  | 0 => valueWith none
  | depth + 1 => valueWith (some (value depth))

/-- How many lists and objects may be around each other. -/
def nestingLimit : Nat := 127

/-- Reads a text that holds one value and nothing else. -/
def read (s : List Char) : Except Failure Value := do
  let (v, r) ← (value nestingLimit).run s
  match skipSpace r with
  | [] => return v
  | c :: t => throw (.behindFirst .trailingCharacters (c :: t))

/-- The value that the text is, if it is JSON. -/
def parse? (text : String) : Option Value := (read text.toList).toOption

end Salvage.Json
