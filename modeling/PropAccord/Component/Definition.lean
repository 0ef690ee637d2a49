import PropAccord.Component.Name
import PropAccord.Props

/-!
# Definitions of components

A component is defined by a function declaration or by a constant that holds an arrow function,
in both cases with one destructured parameter:

* `function Card({ title, size }: CardProps)`;
* `const Card = ({ title, size }: CardProps) =>`, or the same with `let`.

Either may stand behind `export` or `export default`. The parameter list ends at the first closing
brace and an annotation at the first closing parenthesis; there is no parser behind this module.
Definitions of one form are found from left to right and do not overlap.
-/

namespace PropAccord

set_option autoImplicit false

inductive Form where
  | function
  | arrow
deriving DecidableEq, Repr

def Form.label : Form → Text
  | .function => "function".toList
  | .arrow => "arrow".toList

structure Definition where
  name : Text
  form : Form
  /-- The text between the braces of the parameter. -/
  raw : Text
  /-- Offset of that text. -/
  start : Nat
deriving DecidableEq, Repr

namespace Definition

def stop (d : Definition) : Nat := d.start + d.raw.length

def props (d : Definition) : List Text := Props.namesIn d.raw

/-- The rests of a text behind one or more blanks, the longest run of blanks first. -/
def afterBlanks : Text → List Text
  | [] => []
  | c :: rest => if isBlank c then afterBlanks rest ++ [rest] else []

def afterWord (word text : Text) : List Text :=
  match Text.after? word text with
  | some rest => afterBlanks rest
  | none => []

def afterQualifier (text : Text) : List Text :=
  (afterWord "export".toList text).flatMap (afterWord "default".toList) ++
    (afterWord "export".toList text ++ [text])

def afterKeyword : Form → Text → List Text
  | .function, text => afterWord "function".toList text
  | .arrow, text => afterWord "const".toList text ++ afterWord "let".toList text

def afterMark? (mark : Char) (text : Text) : Option Text := Text.after? [mark] text.stripStart

def afterBrace? : Form → Text → Option Text
  | .function, text => afterMark? '(' text >>= afterMark? '{'
  | .arrow, text => afterMark? '=' text >>= afterMark? '(' >>= afterMark? '{'

def fromMark (mark : Char) (text : Text) : Text := text.dropWhile (· ≠ mark)

def annotationPassed (text : Text) : Text :=
  match text.stripStart with
  | ':' :: rest => fromMark ')' rest
  | rest => rest

/-- What follows the whole definition head, read from behind the closing brace. -/
def afterHead? : Form → Text → Option Text
  | .function, text => Text.after? [')'] (annotationPassed text)
  | .arrow, text =>
    Text.after? [')'] (annotationPassed text) >>= fun rest => Text.after? ['=', '>'] rest.stripStart

/-- The parts of a definition head that a text begins with. -/
structure Reading where
  name : Text
  inside : Text
  after : Text

def Reading.raw (r : Reading) : Text := r.inside.before '}'

def readNamed? (form : Form) (pattern : NamePattern) (text : Text) : Option Reading := do
  let (name, rest) ← pattern.read? text
  let inside ← afterBrace? form rest
  let closed ← Text.after? ['}'] (fromMark '}' inside)
  let after ← afterHead? form closed
  return { name, inside, after }

def read? (form : Form) (pattern : NamePattern) (text : Text) : Option Reading :=
  ((afterQualifier text).flatMap (afterKeyword form)).findSome? (readNamed? form pattern)

theorem length_of_mem_afterBlanks {text rest : Text} (h : rest ∈ afterBlanks text) :
    rest.length < text.length := by
  induction text with
  | nil => simp [afterBlanks] at h
  | cons c t ih =>
    simp only [afterBlanks] at h
    split at h
    · simp only [List.mem_append, List.mem_singleton] at h
      rcases h with h | rfl
      · have := ih h
        simp only [List.length_cons]
        omega
      · simp
    · simp at h

theorem length_of_mem_afterWord {word text rest : Text} (h : rest ∈ afterWord word text) :
    rest.length < text.length := by
  unfold afterWord at h
  split at h
  · rename_i t ht
    have := length_of_mem_afterBlanks h
    rw [Text.after?_eq_some_iff.1 ht, List.length_append]
    omega
  · simp at h

theorem length_of_mem_afterQualifier {text rest : Text} (h : rest ∈ afterQualifier text) :
    rest.length ≤ text.length := by
  simp only [afterQualifier, List.mem_append, List.mem_flatMap, List.mem_singleton] at h
  rcases h with ⟨t, ht, h⟩ | h | rfl
  · have := length_of_mem_afterWord ht
    have := length_of_mem_afterWord h
    omega
  · have := length_of_mem_afterWord h
    omega
  · exact Nat.le_refl _

theorem length_of_mem_afterKeyword {form : Form} {text rest : Text}
    (h : rest ∈ afterKeyword form text) : rest.length < text.length := by
  cases form with
  | function => exact length_of_mem_afterWord h
  | arrow =>
    rcases List.mem_append.1 h with h | h <;> exact length_of_mem_afterWord h

theorem length_afterMark_le {mark : Char} {text rest : Text}
    (h : afterMark? mark text = some rest) : rest.length ≤ text.length :=
  Nat.le_trans (Text.length_after?_le h) (Text.length_dropWhile_le _ _)

theorem length_afterBrace_le {form : Form} {text rest : Text}
    (h : afterBrace? form text = some rest) : rest.length ≤ text.length := by
  cases form with
  | function =>
    obtain ⟨t, ht, h⟩ := Option.bind_eq_some_iff.1 h
    exact Nat.le_trans (length_afterMark_le h) (length_afterMark_le ht)
  | arrow =>
    obtain ⟨u, hu, h⟩ := Option.bind_eq_some_iff.1 h
    obtain ⟨t, ht, hu⟩ := Option.bind_eq_some_iff.1 hu
    exact Nat.le_trans (length_afterMark_le h)
      (Nat.le_trans (length_afterMark_le hu) (length_afterMark_le ht))

theorem length_annotationPassed_le (text : Text) : (annotationPassed text).length ≤ text.length := by
  have h : text.stripStart.length ≤ text.length := Text.length_dropWhile_le _ _
  unfold annotationPassed
  split
  · rename_i rest heq
    rw [heq, List.length_cons] at h
    have := Text.length_dropWhile_le (· ≠ ')') rest
    simp only [fromMark]
    omega
  · exact h

theorem length_afterHead_le {form : Form} {text rest : Text}
    (h : afterHead? form text = some rest) : rest.length ≤ text.length := by
  cases form with
  | function => exact Nat.le_trans (Text.length_after?_le h) (length_annotationPassed_le _)
  | arrow =>
    obtain ⟨t, ht, h⟩ := Option.bind_eq_some_iff.1 h
    exact Nat.le_trans (Text.length_after?_le h) (Nat.le_trans (Text.length_dropWhile_le _ _)
      (Nat.le_trans (Text.length_after?_le ht) (length_annotationPassed_le _)))

theorem length_readNamed_le {form : Form} {pattern : NamePattern} {text : Text} {r : Reading}
    (h : readNamed? form pattern text = some r) :
    r.inside.length ≤ text.length ∧ r.after.length ≤ text.length := by
  unfold readNamed? at h
  simp only [Option.bind_eq_bind, Option.bind_eq_some_iff, Prod.exists] at h
  obtain ⟨name, rest, hn, inside, hb, closed, hc, after, ha, heq⟩ := h
  have h₁ := NamePattern.length_read? hn
  have h₂ := length_afterBrace_le hb
  have h₃ := Nat.le_trans (Text.length_after?_le hc) (Text.length_dropWhile_le _ _)
  have h₄ := length_afterHead_le ha
  cases heq
  constructor <;> simp only <;> omega

theorem length_after_lt {form : Form} {pattern : NamePattern} {text : Text} {r : Reading}
    (h : read? form pattern text = some r) :
    r.inside.length < text.length ∧ r.after.length < text.length := by
  obtain ⟨t, ht, h⟩ := List.exists_of_findSome?_eq_some h
  obtain ⟨u, hu, ht⟩ := List.mem_flatMap.1 ht
  have h₁ := length_of_mem_afterQualifier hu
  have h₂ := length_of_mem_afterKeyword ht
  have h₃ := length_readNamed_le h
  omega

/-- The definitions in a text that stands `offset` characters into the whole. -/
def scanFrom (form : Form) (pattern : NamePattern) (offset : Nat) : Text → List Definition
  | [] => []
  | c :: rest =>
    match _h : read? form pattern (c :: rest) with
    | some r =>
      { name := r.name, form, raw := r.raw,
        start := offset + ((c :: rest).length - r.inside.length) } ::
      scanFrom form pattern (offset + ((c :: rest).length - r.after.length)) r.after
    | none => scanFrom form pattern (offset + 1) rest
termination_by text => text.length
decreasing_by
  · exact (length_after_lt _h).2
  · simp

theorem scanFrom_nil (form : Form) (pattern : NamePattern) (offset : Nat) :
    scanFrom form pattern offset [] = [] := by
  rw [scanFrom]

theorem scanFrom_of_read? {form : Form} {pattern : NamePattern} {c : Char} {rest : Text}
    {r : Reading} (offset : Nat) (h : read? form pattern (c :: rest) = some r) :
    scanFrom form pattern offset (c :: rest) =
      { name := r.name, form, raw := r.raw,
        start := offset + ((c :: rest).length - r.inside.length) } ::
      scanFrom form pattern (offset + ((c :: rest).length - r.after.length)) r.after := by
  rw [scanFrom]
  split
  · rename_i r' h'
    rw [h] at h'
    cases h'
    rfl
  · rename_i h'
    rw [h] at h'
    cases h'

theorem scanFrom_of_read?_eq_none {form : Form} {pattern : NamePattern} {c : Char} {rest : Text}
    (offset : Nat) (h : read? form pattern (c :: rest) = none) :
    scanFrom form pattern offset (c :: rest) = scanFrom form pattern (offset + 1) rest := by
  rw [scanFrom]
  split
  · rename_i h'
    rw [h] at h'
    cases h'
  · rfl

def scan (form : Form) (pattern : NamePattern) (text : Text) : List Definition :=
  scanFrom form pattern 0 text

def scanAll (text : Text) : List Definition :=
  scan .function .anyComponent text ++ scan .arrow .anyComponent text

/-- The first definition with the given name; a function declaration is preferred. -/
def find? (text name : Text) : Option Definition :=
  (scan .function (.exactly name) text).head? <|> (scan .arrow (.exactly name) text).head?

end Definition

end PropAccord
