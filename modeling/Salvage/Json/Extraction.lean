import Salvage.Json.Fence
import Salvage.Json.Quotes
import Salvage.Json.Reader
import Salvage.Json.Span

/-! # Extraction

JSON values are found in free text in three stages: the objects in fenced blocks, the
objects in the text without fences, and that text as one value. The first stage that
finds a value is the last one to run.
-/

namespace Salvage.Json

/-- What became of a candidate. -/
inductive Verdict where
  | parsed (v : Value)
  /-- The value after the repair of quotes. -/
  | repaired (v : Value)
  /-- The failure of the repaired text. -/
  | failed (f : Failure)

/-- A brace span and what reading it gives. -/
structure Candidate where
  raw : List Char
  verdict : Verdict

namespace Candidate

/-- Reads a span, and on failure reads it again with its quotes repaired. -/
def ofSpan (raw : List Char) : Candidate where
  raw
  verdict :=
    match read raw with
    | .ok v => .parsed v
    | .error _ =>
      match read (doubleQuotes raw) with
      | .ok v => .repaired v
      | .error f => .failed f

def value? (c : Candidate) : Option Value :=
  match c.verdict with
  | .parsed v => some v
  | .repaired v => some v
  | .failed _ => none

def isRepaired (c : Candidate) : Bool :=
  match c.verdict with
  | .repaired _ => true
  | _ => false

/-- The message of a candidate that failed. -/
def failure? (c : Candidate) : Option String :=
  match c.verdict with
  | .failed f => some (f.message (doubleQuotes c.raw))
  | _ => none

end Candidate

/-- The candidates of a text, in order. -/
def candidates (s : List Char) : List Candidate := (spans s).map .ofSpan

def values (cs : List Candidate) : List Value := cs.filterMap Candidate.value?

/-- How many candidates failed. -/
def failures (cs : List Candidate) : Nat := cs.countP (·.value?.isNone)

inductive Stage where
  | fencedBlocks
  | wholeText
  | singleValue
deriving DecidableEq, Repr

structure Extraction where
  values : List Value
  failures : Nat
  stage : Stage

/-- The outcome of a text in which no value was found. -/
structure NothingFound where
  candidates : Nat
  failures : Nat
deriving DecidableEq, Repr

/-- The text as one list or object. -/
def container? (s : List Char) : Option Value :=
  (read s).toOption.filter fun v => v.isObject || v.isArray

/-- The candidates of all fenced blocks. -/
def fencedCandidates (s : List Char) : List Candidate :=
  (fencedBlock.findAll s).flatMap candidates

def extract (s : List Char) : Except NothingFound Extraction :=
  let fenced := fencedCandidates s
  let whole := candidates (unfence s)
  let tried := fenced ++ whole
  if !(values fenced).isEmpty then .ok ⟨values fenced, failures fenced, .fencedBlocks⟩
  else if !(values whole).isEmpty then .ok ⟨values whole, failures tried, .wholeText⟩
  else
    match container? (unfence s) with
    | some v => .ok ⟨[v], failures tried, .singleValue⟩
    | none => .error ⟨tried.length + 1, failures tried + 1⟩

def NothingFound.message (e : NothingFound) : String :=
  "No JSON could be extracted (" ++ toString e.candidates ++ " candidates, "
    ++ toString e.failures ++ " failed to parse)"

end Salvage.Json
