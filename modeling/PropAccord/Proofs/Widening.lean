import PropAccord.Proofs.DefinitionHeads
import PropAccord.Proofs.Edits
import PropAccord.Sync.Edits

/-!
# Widened definitions

A definition whose parameter list has been widened is found again at its place. The text around the
list stays as it is, so a start before it could only come to be a definition through an annotation
that runs into the list and ends at a parenthesis there. New names stand behind everything else in
the list and have no marks, so such an annotation ends where it ended before.
-/

namespace PropAccord

set_option autoImplicit false

open Text (dropWhile_append_stop)

namespace Definition

/-! ## Exchanging a parameter list -/

/-- What follows the definition, read from behind the annotation. -/
def afterList? : Form → Text → Option Text
  | .function, t => Text.after? [')'] t
  | .arrow, t => Text.after? [')'] t >>= fun rest => Text.after? ['=', '>'] rest.stripStart

theorem afterHead?_eq (form : Form) (t : Text) :
    afterHead? form t = afterList? form (annotationPassed t) := by
  cases form <;> rfl

theorem afterList?_append (form : Form) (z v : Text) :
    afterList? form (z ++ '{' :: v) = (afterList? form z).map (· ++ '{' :: v) := by
  cases form with
  | function => exact Text.after?_append (by decide) z v
  | arrow =>
    simp only [afterList?, Text.after?_append (show '{' ∉ [')'] by decide), Option.bind_eq_bind]
    cases Text.after? [')'] z with
    | none => rfl
    | some rest =>
      simp only [Option.map_some, Option.bind_some, Text.stripStart]
      rw [dropWhile_append_stop (by decide), Text.after?_append (by decide)]

theorem fromMark_append_of_mem {mark : Char} {t : Text} (h : mark ∈ t) (s : Text) :
    fromMark mark (t ++ s) = fromMark mark t ++ s := by
  obtain ⟨a, b, rfl, ha⟩ := List.eq_append_cons_of_mem h
  rw [List.append_assoc, fromMark_append ha, fromMark_append ha, List.cons_append, fromMark_cons,
    fromMark_cons, List.cons_append]

theorem annotationPassed_of_colon {t rest : Text} (h : t.stripStart = ':' :: rest) :
    annotationPassed t = fromMark ')' rest := by
  rw [annotationPassed, h]
  rfl

theorem annotationPassed_of_ne {t : Text} (h : t.stripStart.head? ≠ some ':') :
    annotationPassed t = t.stripStart := by
  rw [annotationPassed]
  split
  · rename_i rest heq
    rw [heq] at h
    exact absurd rfl h
  · rfl

/-- Behind a brace that an annotation may run over, another text may stand if that makes no
difference to an annotation that ends there. -/
theorem afterHead?_exchange {form : Form} {v v' : Text}
    (hv : afterList? form (fromMark ')' v) = none → afterList? form (fromMark ')' v') = none)
    (z : Text) (h : afterHead? form (z ++ '{' :: v) = none) :
    afterHead? form (z ++ '{' :: v') = none := by
  have hstrip : ∀ u, (z ++ '{' :: u).stripStart = z.stripStart ++ '{' :: u :=
    dropWhile_append_stop (by decide) z
  rw [afterHead?_eq] at h ⊢
  by_cases hcolon : ∃ rest, z.stripStart = ':' :: rest
  · obtain ⟨rest, hz⟩ := hcolon
    have hpassed : ∀ u, annotationPassed (z ++ '{' :: u) = fromMark ')' (rest ++ '{' :: u) :=
      fun u => annotationPassed_of_colon (by rw [hstrip, hz]; rfl)
    rw [hpassed] at h ⊢
    by_cases hparen : ')' ∈ rest
    · rw [fromMark_append_of_mem hparen, afterList?_append, Option.map_eq_none_iff] at h ⊢
      exact h
    · rw [fromMark_append hparen] at h ⊢
      exact hv h
  · have hpassed : ∀ u, annotationPassed (z ++ '{' :: u) = z.stripStart ++ '{' :: u := by
      intro u
      rw [annotationPassed_of_ne, hstrip]
      rw [hstrip]
      cases hz : z.stripStart with
      | nil => exact nofun
      | cons c rest =>
        intro hc
        exact hcolon ⟨rest, by rw [hz, Option.some.inj hc]⟩
    rw [hpassed, afterList?_append, Option.map_eq_none_iff] at h ⊢
    exact h

/-- Behind the head of a definition, another text may stand that does not close a list either. -/
theorem read?_eq_none_of_closes? {form : Form} {name : Text} (hname : '{' ∉ name) {head : Text}
    (hfree : '{' ∉ head) {v v' : Text} (hv : closes? form v = none → closes? form v' = none)
    (h : read? form (.exactly name) (head ++ '{' :: v) = none) :
    read? form (.exactly name) (head ++ '{' :: v') = none := by
  rw [read?_exactly_append form hfree _ hname] at h ⊢
  split at h
  · rename_i hhead
    rw [Option.map_eq_none_iff] at h
    rw [if_pos hhead, hv h]
    rfl
  · rename_i hhead
    rw [if_neg hhead]

/-- No start before a parameter list comes to be a definition when the list is exchanged. -/
theorem read?_exchange {form : Form} {name : Text} (hname : '{' ∉ name) {raw raw' closed : Text}
    (hraw : '}' ∉ raw) (hraw' : '}' ∉ raw')
    (hpast : afterList? form (fromMark ')' (raw ++ '}' :: closed)) = none →
      afterList? form (fromMark ')' (raw' ++ '}' :: closed)) = none)
    (x : Text) (h : read? form (.exactly name) (x ++ '{' :: (raw ++ '}' :: closed)) = none) :
    read? form (.exactly name) (x ++ '{' :: (raw' ++ '}' :: closed)) = none := by
  by_cases hx : '{' ∈ x
  · obtain ⟨head, w, rfl, hfree⟩ := List.eq_append_cons_of_mem hx
    rw [List.append_assoc, List.cons_append] at h ⊢
    refine read?_eq_none_of_closes? hname hfree ?_ h
    intro hnone
    by_cases hw : '}' ∈ w
    · -- The list of this start ends before the brace, so its annotation may run over it.
      obtain ⟨inner, z, rfl, hinner⟩ := List.eq_append_cons_of_mem hw
      rw [List.append_assoc, List.cons_append, closes?_append form hinner] at hnone ⊢
      exact afterHead?_exchange hpast z hnone
    · -- The list of this start ends where the exchanged one ends.
      have hlist : ∀ u : Text, '}' ∉ u → closes? form (w ++ '{' :: (u ++ '}' :: closed)) =
          afterHead? form closed := by
        intro u hu
        rw [← List.cons_append, ← List.append_assoc]
        apply closes?_append
        apply List.not_mem_append hw
        intro hmem
        exact hu ((List.mem_cons.1 hmem).resolve_left (by decide))
      rw [hlist raw hraw] at hnone
      rw [hlist raw' hraw', hnone]
  · refine read?_eq_none_of_closes? hname hx ?_ h
    intro hnone
    rw [closes?_append form hraw] at hnone
    rw [closes?_append form hraw', hnone]

theorem mem_of_mem_annotationPassed {c : Char} {t : Text} (h : c ∈ annotationPassed t) : c ∈ t := by
  apply (List.dropWhile_sublist isBlank).mem
  rw [← Text.stripStart]
  rw [annotationPassed] at h
  split at h
  · rename_i rest heq
    rw [heq]
    exact List.mem_cons_of_mem ':' ((List.dropWhile_sublist _).mem h)
  · exact h

theorem mem_of_afterHead? {form : Form} {closed : Text}
    (h : (afterHead? form closed).isSome = true) : ')' ∈ closed := by
  have hafter : (Text.after? [')'] (annotationPassed closed)).isSome = true := by
    cases form with
    | function => exact h
    | arrow => exact Option.isSome_of_isSome_bind h
  obtain ⟨rest, hrest⟩ := Option.isSome_iff_exists.1 hafter
  apply mem_of_mem_annotationPassed
  rw [Text.after?_eq_some_iff.1 hrest]
  exact List.mem_cons_self

/-- An annotation of a function declaration ends at any parenthesis. -/
theorem afterList?_function_ne_none {v : Text} (h : ')' ∈ v) :
    afterList? .function (fromMark ')' v) ≠ none := by
  obtain ⟨a, b, rfl, ha⟩ := List.eq_append_cons_of_mem h
  rw [fromMark_append ha, fromMark_cons]
  exact nofun

theorem read?_function_exchange {name : Text} (hname : '{' ∉ name) {raw raw' closed : Text}
    (hraw : '}' ∉ raw) (hraw' : '}' ∉ raw') (hclosed : ')' ∈ closed) (x : Text)
    (h : read? .function (.exactly name) (x ++ '{' :: (raw ++ '}' :: closed)) = none) :
    read? .function (.exactly name) (x ++ '{' :: (raw' ++ '}' :: closed)) = none := by
  apply read?_exchange hname hraw hraw' _ x h
  intro hnone
  refine absurd hnone (afterList?_function_ne_none ?_)
  exact List.mem_append_right raw (List.mem_cons_of_mem '}' hclosed)

theorem Stands.exchange_of_function {name before head closed : Text} {d : Definition}
    (hname : '{' ∉ name) (h : Stands name before head closed d) (hform : d.form = .function)
    {raw : Text} (hraw : '}' ∉ raw) : Stands name before head closed { d with raw } := by
  refine ⟨h.named, h.place, h.free, h.opened, hraw, h.ended, ?_, ?_⟩
  · refine h.first.exchange ?_
    intro t _ hread
    rw [← List.append_assoc] at hread ⊢
    simp only [hform] at hread ⊢
    exact read?_function_exchange hname h.inner hraw (mem_of_afterHead? h.ended) _ hread
  · intro harrow
    rw [show d.form = .arrow from harrow] at hform
    cases hform

/-! ## Exchanging the end of a parameter list -/

/-- An end of a parameter list that has no marks which a definition or its annotation could use. -/
structure Quiet (t : Text) : Prop where
  noOpening : '{' ∉ t
  noClosing : '}' ∉ t
  noParen : ')' ∉ t
  noEquals : t.stripStart.head? ≠ some '='
  noArrow : t.head? ≠ some '>'

/-- An arrow is not made of the end of a text and what follows it. -/
theorem after?_arrow_append {t : Text} (hequals : t.stripStart.head? ≠ some '=')
    (harrow : t.head? ≠ some '>') (b : Text) :
    Text.after? ['=', '>'] (b ++ t).stripStart =
      (Text.after? ['=', '>'] b.stripStart).map (· ++ t) := by
  have hstrip : (b ++ t).stripStart =
      if b.stripStart.isEmpty then t.stripStart else b.stripStart ++ t := List.dropWhile_append
  rw [hstrip]
  rcases b.stripStart with _ | ⟨c, _ | ⟨e, rest⟩⟩
  · rcases hts : t.stripStart with _ | ⟨c, rest⟩
    · rfl
    · have hc : '=' ≠ c := fun heq => hequals (by rw [hts, heq]; rfl)
      simp [Text.after?, hc]
  · rcases t with _ | ⟨e, rest⟩
    · simp [Text.after?]
    · have he : '>' ≠ e := fun heq => harrow (by rw [heq]; rfl)
      simp [Text.after?, he]
  · by_cases hc : '=' = c
    · by_cases he : '>' = e
      · subst hc he
        rfl
      · simp [Text.after?, he]
    · simp [Text.after?, hc]

theorem Quiet.head?_strip_append {t : Text} (h : Quiet t) (closed : Text) :
    (t ++ '}' :: closed).stripStart.head? ≠ some '=' := by
  rw [Text.stripStart, dropWhile_append_stop (by decide), List.head?_append]
  have hequals := h.noEquals
  rw [Text.stripStart] at hequals
  cases hd : (t.dropWhile isBlank).head? with
  | none =>
    intro hbrace
    cases hbrace
  | some c => rwa [hd] at hequals

theorem Quiet.head?_append {t : Text} (h : Quiet t) (closed : Text) :
    (t ++ '}' :: closed).head? ≠ some '>' := by
  rw [List.head?_append]
  cases hd : t.head? with
  | none =>
    intro hbrace
    cases hbrace
  | some c =>
    have harrow := h.noArrow
    rwa [hd] at harrow

theorem afterList?_arrow_exchange {tail tail' : Text} (ht : Quiet tail) (ht' : Quiet tail')
    (body closed : Text)
    (h : afterList? .arrow (fromMark ')' (body ++ tail ++ '}' :: closed)) = none) :
    afterList? .arrow (fromMark ')' (body ++ tail' ++ '}' :: closed)) = none := by
  rw [List.append_assoc] at h ⊢
  by_cases hbody : ')' ∈ body
  · -- The annotation ends in the part that stays, and so does an arrow behind it.
    obtain ⟨a, b, rfl, ha⟩ := List.eq_append_cons_of_mem hbody
    have hpassed : ∀ u, Quiet u →
        afterList? .arrow (fromMark ')' (a ++ ')' :: b ++ (u ++ '}' :: closed))) =
          (Text.after? ['=', '>'] (Text.stripStart b)).map (· ++ (u ++ '}' :: closed)) := by
      intro u hu
      rw [List.append_assoc, fromMark_append ha, List.cons_append, fromMark_cons]
      exact after?_arrow_append (hu.head?_strip_append closed) (hu.head?_append closed) b
    rw [hpassed tail ht, Option.map_eq_none_iff] at h
    rw [hpassed tail' ht', Option.map_eq_none_iff]
    exact h
  · rw [fromMark_append hbody, fromMark_append ht.noParen] at h
    rw [fromMark_append hbody, fromMark_append ht'.noParen]
    exact h

theorem read?_tail_exchange {form : Form} {name : Text} (hname : '{' ∉ name)
    {body tail tail' closed : Text} (hbody : '}' ∉ body) (ht : Quiet tail) (ht' : Quiet tail')
    (hclosed : ')' ∈ closed) (x : Text)
    (h : read? form (.exactly name) (x ++ '{' :: (body ++ tail ++ '}' :: closed)) = none) :
    read? form (.exactly name) (x ++ '{' :: (body ++ tail' ++ '}' :: closed)) = none := by
  have hinner : ∀ u, Quiet u → '}' ∉ body ++ u :=
    fun u hu => List.not_mem_append hbody hu.noClosing
  cases form with
  | function =>
    exact read?_function_exchange hname (hinner tail ht) (hinner tail' ht') hclosed x h
  | arrow =>
    exact read?_exchange hname (hinner tail ht) (hinner tail' ht')
      (afterList?_arrow_exchange ht ht' body closed) x h

/-- No definition starts where a closing brace comes before the next opening one. -/
theorem read?_eq_none_of_closing (form : Form) {name : Text} (hopen : '{' ∉ name)
    (hclose : '}' ∉ name) {t : Text} (ht : '{' ∉ t) (closed : Text) :
    read? form (.exactly name) (t ++ '}' :: closed) = none := by
  have hbrace : '{' ∉ t ++ ['}'] := List.not_mem_append ht (by decide)
  rw [← List.singleton_append, ← List.append_assoc]
  by_cases hc : '{' ∈ closed
  · obtain ⟨a, b, rfl, ha⟩ := List.eq_append_cons_of_mem hc
    rw [← List.append_assoc, read?_exactly_append form (List.not_mem_append hbrace ha) _ hopen, if_neg]
    intro hhead
    apply not_mem_of_isHead hclose hhead
    exact List.mem_append_left a (List.mem_append_right t List.mem_cons_self)
  · exact read?_eq_none_of_not_mem form _ (List.not_mem_append hbrace hc)

theorem skips_of_not_mem (form : Form) {name : Text} (hopen : '{' ∉ name) (hclose : '}' ∉ name)
    {t : Text} (ht : '{' ∉ t) (closed : Text) :
    Skips form (.exactly name) t ('}' :: closed) := by
  induction t with
  | nil => trivial
  | cons c t ih =>
    exact ⟨read?_eq_none_of_closing form hopen hclose ht closed,
      ih fun hmem => ht (List.mem_cons_of_mem c hmem)⟩

/-- No definition starts inside a parameter list if none did before its end was exchanged. -/
theorem skips_inside {form : Form} {name : Text} (hopen : '{' ∉ name) (hclose : '}' ∉ name)
    {body tail tail' closed : Text} (hbody : '}' ∉ body) (ht : Quiet tail) (ht' : Quiet tail')
    (h : Skips form (.exactly name) (body ++ tail) ('}' :: closed)) :
    Skips form (.exactly name) (body ++ tail') ('}' :: closed) := by
  refine skips_append.2 ⟨(skips_append.1 h).1.exchange ?_,
    skips_of_not_mem form hopen hclose ht'.noOpening closed⟩
  intro t hsuffix hread
  by_cases hbrace : '{' ∈ t
  · obtain ⟨head, w, rfl, hfree⟩ := List.eq_append_cons_of_mem hbrace
    have hw : '}' ∉ w := fun hmem =>
      hbody (hsuffix.subset (List.mem_append_right head (List.mem_cons_of_mem '{' hmem)))
    have hlist : ∀ u, Quiet u →
        closes? form (w ++ (u ++ '}' :: closed)) = afterHead? form closed := by
      intro u hu
      rw [← List.append_assoc]
      exact closes?_append form (List.not_mem_append hw hu.noClosing) closed
    rw [List.append_assoc, List.cons_append] at hread ⊢
    refine read?_eq_none_of_closes? hopen hfree ?_ hread
    rw [hlist tail ht, hlist tail' ht']
    exact id
  · rw [← List.append_assoc]
    exact read?_eq_none_of_closing form hopen hclose
      (List.not_mem_append hbrace ht'.noOpening) closed

theorem Stands.exchange_tail {name before head closed : Text} {d : Definition} (hopen : '{' ∉ name)
    (hclose : '}' ∉ name) (h : Stands name before head closed d) {body tail tail' : Text}
    (hd : d.raw = body ++ tail) (ht : Quiet tail) (ht' : Quiet tail') :
    Stands name before head closed { d with raw := body ++ tail' } := by
  have hbody : '}' ∉ body := fun hmem => h.inner (hd ▸ List.mem_append_left tail hmem)
  have hparen := mem_of_afterHead? h.ended
  refine ⟨h.named, h.place, h.free, h.opened, ?_, h.ended, ?_, ?_⟩
  · exact List.not_mem_append hbody ht'.noClosing
  · refine h.first.exchange ?_
    intro t _ hread
    rw [hd] at hread
    rw [← List.append_assoc] at hread ⊢
    exact read?_tail_exchange hopen hbody ht ht' hparen _ hread
  · intro harrow
    have hskips := h.preferred harrow
    rw [hd] at hskips
    simp only [around, ← List.append_assoc before] at hskips ⊢
    rw [skips_append, List.append_nil] at hskips ⊢
    obtain ⟨houter, hread, hlist⟩ := hskips
    rw [skips_append, List.append_nil] at hlist
    refine ⟨houter.exchange ?_, ?_, ?_⟩
    · intro t _ hread
      exact read?_tail_exchange hopen hbody ht ht' hparen t hread
    · rw [List.append_nil] at hread ⊢
      exact read?_tail_exchange hopen hbody ht ht' hparen [] hread
    · rw [skips_append, List.append_nil]
      exact ⟨skips_inside hopen hclose hbody ht ht' hlist.1, hlist.2⟩

end Definition

namespace Sync

/-! ## Names in a widened list -/

/-- Characters that may stand among the names of a list. -/
def isListChar (c : Char) : Bool := isNameChar c || isBlank c || c == ','

theorem quiet_of_forall_isListChar {t : Text} (h : ∀ c ∈ t, isListChar c = true) :
    Definition.Quiet t := by
  have hnot : ∀ c, isListChar c = false → c ∉ t := by
    intro c hc hmem
    rw [h c hmem] at hc
    cases hc
  refine ⟨hnot _ (by decide), hnot _ (by decide), hnot _ (by decide), ?_, ?_⟩
  · intro hhead
    exact hnot '=' (by decide) ((List.dropWhile_sublist isBlank).mem (List.mem_of_head? hhead))
  · intro hhead
    exact hnot '>' (by decide) (List.mem_of_head? hhead)

theorem isListChar_of_allBlank {t : Text} (h : t.allBlank = true) :
    ∀ c ∈ t, isListChar c = true := by
  intro c hc
  rw [isListChar, List.all_eq_true.1 h c hc, Bool.or_true, Bool.true_or]

theorem mem_nameList {names : List Text} {c : Char} (h : c ∈ nameList names) :
    c = ',' ∨ c = ' ' ∨ ∃ name ∈ names, c ∈ name := by
  have hmarks : ∀ c ∈ ", ".toList, c = ',' ∨ c = ' ' := by simp
  rcases Text.mem_join h with h | h
  · exact (hmarks c h).imp_right Or.inl
  · exact Or.inr (Or.inr h)

theorem isListChar_of_mem_nameList {names : List Text}
    (h : ∀ name ∈ names, isIdentifier name = true) : ∀ c ∈ nameList names, isListChar c = true := by
  intro c hc
  rcases mem_nameList hc with rfl | rfl | ⟨name, hname, hc⟩
  · decide
  · decide
  · rw [isListChar, isNameChar_of_mem_identifier (h name hname) c hc, Bool.true_or, Bool.true_or]

/-- Appended names stand behind the part of the list that stays. Where some of it stays, a comma or a
blank comes first behind it. -/
theorem exists_tail_of_widen_append {raw : Text} {merged added : List Text}
    (hmerged : raw.allBlank = true → ∀ name ∈ merged, isIdentifier name = true)
    (hadded : ∀ name ∈ added, isIdentifier name = true) :
    ∃ body tail tail', raw = body ++ tail ∧ widen .append raw merged added = body ++ tail' ∧
      (∀ c ∈ tail, isListChar c = true) ∧ (∀ c ∈ tail', isListChar c = true) ∧
      (body = [] ∨ (∀ c ∈ tail.head?, isBlank c = true ∨ c = ',') ∧
        ∀ c ∈ tail'.head?, isBlank c = true ∨ c = ',') := by
  rw [widen]
  by_cases hraw : raw.allBlank = true
  · rw [if_pos hraw]
    exact ⟨[], raw, nameList merged, rfl, rfl, isListChar_of_allBlank hraw,
      isListChar_of_mem_nameList (hmerged hraw), Or.inl rfl⟩
  · rw [if_neg hraw]
    have htrailing := isListChar_of_allBlank (Text.allBlank_trailingBlanks raw)
    refine ⟨raw.stripEnd, raw.trailingBlanks,
      (if raw.stripEnd.getLast? = some ',' then " ".toList else ", ".toList) ++
        (nameList added ++ raw.trailingBlanks), (Text.stripEnd_append_trailingBlanks raw).symm,
      by simp only [List.append_assoc], htrailing, ?_, Or.inr ⟨?_, ?_⟩⟩
    · intro c hc
      rcases List.mem_append.1 hc with hc | hc
      · have hmarks : ∀ c ∈ ", ".toList, isListChar c = true := List.all_eq_true.1 (by decide)
        split at hc
        · exact hmarks c (List.mem_cons_of_mem ',' hc)
        · exact hmarks c hc
      · rcases List.mem_append.1 hc with hc | hc
        · exact isListChar_of_mem_nameList hadded c hc
        · exact htrailing c hc
    · intro c hc
      exact Or.inl (List.all_eq_true.1 (Text.allBlank_trailingBlanks raw) c (List.mem_of_head? hc))
    · intro c hc
      split at hc
      · obtain rfl : ' ' = c := Option.some.inj hc
        exact Or.inl (by decide)
      · obtain rfl : ',' = c := Option.some.inj hc
        exact Or.inr rfl

theorem namesIn_eq_nil_of_allBlank {raw : Text} (h : raw.allBlank = true) :
    Props.namesIn raw = [] := by
  rw [← List.nil_append raw, Props.namesIn_append_blanks h]
  rfl

theorem namesIn_stripEnd (raw : Text) : Props.namesIn raw.stripEnd = Props.namesIn raw := by
  have hnames := Props.namesIn_append_blanks (Text.allBlank_trailingBlanks raw) raw.stripEnd
  rw [Text.stripEnd_append_trailingBlanks] at hnames
  exact hnames.symm

/-- Appending keeps the names of the list, and the new ones are read behind them. -/
theorem namesIn_widen_append {raw : Text} (h : raw.allBlank = false) (merged added : List Text) :
    Props.namesIn (widen .append raw merged added) =
      Props.namesIn raw ++ Props.namesIn (' ' :: nameList added) := by
  have hnew : Props.namesIn (' ' :: (nameList added ++ raw.trailingBlanks)) =
      Props.namesIn (' ' :: nameList added) :=
    Props.namesIn_append_blanks (Text.allBlank_trailingBlanks raw) (' ' :: nameList added)
  rw [widen, if_neg (by rw [h]; exact nofun), ← namesIn_stripEnd raw, ← hnew]
  by_cases hlast : raw.stripEnd.getLast? = some ','
  · obtain ⟨front, hfront⟩ := List.getLast?_eq_some_iff.1 hlast
    have hempty : Props.namesIn [] = [] := rfl
    simp only [hfront, List.getLast?_concat, if_true]
    rw [Props.namesIn_append_comma front [], hempty, List.append_nil, ← Props.namesIn_append_comma]
    congr 1
    simp
  · rw [← Props.namesIn_append_comma]
    simp only [hlast, if_false]
    congr 1
    simp

theorem namesIn_widen_canonical {raw : Text} (h : raw.allBlank = false) (merged added : List Text) :
    Props.namesIn (widen .canonical raw merged added) =
      Props.namesIn (raw.leadingBlanks ++ nameList merged) := by
  rw [widen, if_neg (by rw [h]; exact nofun)]
  exact Props.namesIn_append_blanks (Text.allBlank_trailingBlanks raw) _

theorem widen_of_allBlank (mode : WidenMode) {raw : Text} (h : raw.allBlank = true)
    (merged added : List Text) : widen mode raw merged added = nameList merged :=
  if_pos h

theorem mem_namesIn_widen (mode : WidenMode) {raw : Text} {used : List Text}
    (hused : ∀ name ∈ used, isIdentifier name = true) {name : Text} (hname : name ∈ used) :
    name ∈ Props.namesIn (widen mode raw (Props.merge (Props.namesIn raw) used)
      ((Props.merge (Props.namesIn raw) used).filter fun p => !(Props.namesIn raw).contains p)) := by
  have hmerged : name ∈ Props.merge (Props.namesIn raw) used :=
    Props.mem_merge_iff.2 (Or.inr hname)
  have hbare : ∀ name ∈ Props.merge (Props.namesIn raw) used, Props.Bare name :=
    Props.bare_of_mem_merge hused
  have hmark := Props.getLast?_ne_of_isIdentifier (hused name hname)
  by_cases hraw : raw.allBlank = true
  · rw [widen_of_allBlank mode hraw]
    exact Props.mem_namesIn_join hbare hmerged hmark (b := []) rfl
  · cases mode with
    | append =>
      rw [namesIn_widen_append (Bool.eq_false_iff.2 hraw), List.mem_append]
      by_cases hold : name ∈ Props.namesIn raw
      · exact Or.inl hold
      · right
        refine Props.mem_namesIn_join (fun p hp => hbare p (List.mem_filter.1 hp).1) ?_ hmark
          (b := [' ']) rfl
        rw [List.mem_filter]
        exact ⟨hmerged, by simpa using hold⟩
    | canonical =>
      rw [namesIn_widen_canonical (Bool.eq_false_iff.2 hraw)]
      exact Props.mem_namesIn_join hbare hmerged hmark (Text.allBlank_leadingBlanks raw)

/-- A widened list has no characters but those of the list, of the names and between names. -/
theorem not_mem_widen {mode : WidenMode} {raw : Text} {used added : List Text} {c : Char}
    (hc : isNameChar c = false) (hcomma : c ≠ ',') (hspace : c ≠ ' ') (hraw : c ∉ raw)
    (hused : ∀ name ∈ used, isIdentifier name = true)
    (hadded : ∀ name ∈ added, name ∈ Props.merge (Props.namesIn raw) used) :
    c ∉ widen mode raw (Props.merge (Props.namesIn raw) used) added := by
  have hnames : ∀ names : List Text, (∀ name ∈ names, name ∈ Props.merge (Props.namesIn raw) used) →
      c ∉ nameList names := by
    intro names hnames hmem
    rcases mem_nameList hmem with h | h | ⟨name, hname, hc'⟩
    · exact hcomma h
    · exact hspace h
    · rcases Props.mem_merge_iff.1 (hnames name hname) with hname | hname
      · exact hraw (Props.mem_of_mem_namesIn hname hc')
      · exact not_mem_of_isIdentifier (hused name hname) hc hc'
  have hmerged := hnames _ fun _ h => h
  have htrailing : c ∉ raw.trailingBlanks := fun hmem =>
    hraw (List.mem_reverse.1 ((List.takeWhile_sublist _).mem (List.mem_reverse.1 hmem)))
  unfold widen
  split
  · exact hmerged
  · cases mode with
    | append =>
      have hbody : c ∉ raw.stripEnd := fun hmem =>
        hraw (List.mem_reverse.1 ((List.dropWhile_sublist _).mem (List.mem_reverse.1 hmem)))
      refine List.not_mem_append (List.not_mem_append (List.not_mem_append hbody ?_)
        (hnames added hadded)) htrailing
      split <;> simp [hcomma, hspace]
    | canonical =>
      have hleading : c ∉ raw.leadingBlanks := fun hmem => hraw ((List.takeWhile_sublist _).mem hmem)
      exact List.not_mem_append (List.not_mem_append hleading hmerged) htrailing

/-! ## Finding the definition again -/

/-- The parameter list that a widening writes. -/
def widenedRaw (mode : WidenMode) (d : Definition) (used : List Text) : Text :=
  widen mode d.raw (Props.merge d.props used)
    ((Props.merge d.props used).filter fun p => !d.props.contains p)

theorem not_mem_widenedRaw {mode : WidenMode} {d : Definition} {used : List Text} {c : Char}
    (hc : isNameChar c = false) (hcomma : c ≠ ',') (hspace : c ≠ ' ') (hraw : c ∉ d.raw)
    (hused : ∀ prop ∈ used, isIdentifier prop = true) : c ∉ widenedRaw mode d used :=
  not_mem_widen hc hcomma hspace hraw hused fun _ hadded => (List.mem_filter.1 hadded).1

theorem exists_tail_of_widenedRaw (d : Definition) {used : List Text}
    (hused : ∀ prop ∈ used, isIdentifier prop = true) :
    ∃ body tail tail', d.raw = body ++ tail ∧ widenedRaw .append d used = body ++ tail' ∧
      (∀ c ∈ tail, isListChar c = true) ∧ (∀ c ∈ tail', isListChar c = true) ∧
      (body = [] ∨ (∀ c ∈ tail.head?, isBlank c = true ∨ c = ',') ∧
        ∀ c ∈ tail'.head?, isBlank c = true ∨ c = ',') := by
  apply exists_tail_of_widen_append
  · intro hblank prop hprop
    rw [Definition.props, namesIn_eq_nil_of_allBlank hblank] at hprop
    exact hused prop ((Props.mem_merge_iff.1 hprop).resolve_left List.not_mem_nil)
  · intro prop hprop
    obtain ⟨hmem, hnew⟩ := List.mem_filter.1 hprop
    have hnot : prop ∉ d.props := by simpa using hnew
    exact hused prop ((Props.mem_merge_iff.1 hmem).resolve_left hnot)

theorem stands_widened {name before head closed : Text} {d : Definition} (hopen : '{' ∉ name)
    (hclose : '}' ∉ name) (h : Definition.Stands name before head closed d) {used : List Text}
    (hused : ∀ prop ∈ used, isIdentifier prop = true) {mode : WidenMode}
    (hmode : mode = .append ∨ d.form = .function) :
    Definition.Stands name before head closed { d with raw := widenedRaw mode d used } := by
  cases mode with
  | append =>
    obtain ⟨body, tail, tail', hraw, hwiden, htail, htail', -⟩ := exists_tail_of_widenedRaw d hused
    rw [hwiden]
    exact h.exchange_tail hopen hclose hraw (quiet_of_forall_isListChar htail)
      (quiet_of_forall_isListChar htail')
  | canonical =>
    have hform := hmode.resolve_left nofun
    exact h.exchange_of_function hopen hform
      (not_mem_widenedRaw (by decide) (by decide) (by decide) h.inner hused)

/-- Replacing the parameter list of a definition leaves its surroundings alone. -/
theorem replace_around {name before head closed : Text} {d : Definition}
    (h : Definition.Stands name before head closed d) (raw : Text) :
    Edit.replace ⟨d.start, d.stop, raw⟩ (Definition.around before head d.raw closed) =
      Definition.around before head raw closed := by
  have hstart : (before ++ head ++ ['{']).length = d.start := by
    rw [h.place, List.length_append, List.length_append, List.length_singleton]
  have hstop : (before ++ head ++ ['{'] ++ d.raw).length = d.stop := by
    rw [List.length_append, hstart, Definition.stop]
  have haround : ∀ u, Definition.around before head u closed =
      before ++ head ++ ['{'] ++ u ++ '}' :: closed := by
    intro u
    simp [Definition.around]
  rw [Edit.replace, Int.toNat_natCast, Int.toNat_natCast, ← hstop, haround d.raw, List.drop_left,
    ← hstart, List.append_assoc _ d.raw, List.take_left, haround]

theorem stop_le_length_of_stands {name before head closed : Text} {d : Definition}
    (h : Definition.Stands name before head closed d) :
    d.stop ≤ (Definition.around before head d.raw closed).length := by
  rw [Definition.stop, h.place]
  simp only [Definition.around, List.length_append, List.length_cons]
  omega

theorem widening_of_forall (mode : WidenMode) (s : Snapshot) {d : Definition} {used : List Text}
    (h : ∀ prop ∈ used, prop ∈ d.props) : widening mode s d used = ⟨{}, d.props, []⟩ := by
  have hnone : ((Props.merge d.props used).filter fun p => !d.props.contains p) = [] := by
    rw [List.filter_eq_nil_iff]
    intro prop hprop
    have hmem : prop ∈ d.props := (Props.mem_merge_iff.1 hprop).elim id (h prop)
    simpa using hmem
  rw [widening, hnone]
  rfl

theorem widening_widened (mode : WidenMode) (s : Snapshot) {d : Definition} {used : List Text}
    (hused : ∀ prop ∈ used, isIdentifier prop = true) :
    widening mode s { d with raw := widenedRaw mode d used } used =
      ⟨{}, Props.namesIn (widenedRaw mode d used), []⟩ :=
  widening_of_forall mode s fun _ hprop => mem_namesIn_widen mode hused hprop

theorem isEmpty_added {d : Definition} {used : List Text} (hnew : ∃ prop ∈ used, prop ∉ d.props) :
    ((Props.merge d.props used).filter fun p => !d.props.contains p).isEmpty = false := by
  obtain ⟨prop, hprop, hnot⟩ := hnew
  rw [List.isEmpty_eq_false_iff]
  apply List.ne_nil_of_mem (a := prop)
  rw [List.mem_filter]
  exact ⟨Props.mem_merge_iff.2 (Or.inr hprop), by simpa using hnot⟩

theorem widening_eq_of_exists (mode : WidenMode) (s : Snapshot) {d : Definition} {used : List Text}
    (hnew : ∃ prop ∈ used, prop ∉ d.props) :
    widening mode s d used =
      ⟨⟨[{ snapshot := s, replacements := [⟨d.start, d.stop, widenedRaw mode d used⟩] }]⟩,
        Props.merge d.props used,
        (Props.merge d.props used).filter fun p => !d.props.contains p⟩ := by
  rw [widening]
  simp only [isEmpty_added hnew]
  rfl

/-- A widened definition is found again in the same form and at the same place, with the parameter
list that was written, and it needs no widening by the same props. -/
theorem find?_widened {name : Text} (hname : isComponentName name = true) {s : Snapshot}
    {d : Definition} (hd : Definition.find? s.text name = some d) {used : List Text}
    (hused : ∀ prop ∈ used, isIdentifier prop = true) (hnew : ∃ prop ∈ used, prop ∉ d.props)
    {mode : WidenMode} (hmode : mode = .append ∨ d.form = .function) :
    ∃ f text, (widening mode s d used).plan.files = [f] ∧ f.snapshot = s ∧ f.apply = .ok text ∧
      ∃ d', Definition.find? text name = some d' ∧
        d' = { d with
          raw := widen mode d.raw (widening mode s d used).merged (widening mode s d used).added } ∧
        ∀ s', (widening mode s' d' used).added = [] ∧ (widening mode s' d' used).plan = {} := by
  have hchars := isNameChar_of_mem_componentName hname
  have hopen : '{' ∉ name := not_mem_of_all_isNameChar hchars (by decide)
  have hclose : '}' ∉ name := not_mem_of_all_isNameChar hchars (by decide)
  obtain ⟨before, head, closed, htext, hstands⟩ := (Definition.find?_eq_some_iff hopen).1 hd
  have hwidening := widening_eq_of_exists mode s hnew
  refine ⟨_, _, congrArg (fun w => w.plan.files) hwidening, rfl,
    FilePlan.apply_replacement s ?_ ?_ ?_, { d with raw := widenedRaw mode d used }, ?_, ?_, ?_⟩
  · exact Int.natCast_nonneg d.start
  · exact Int.ofNat_le.2 (Nat.le_add_right d.start d.raw.length)
  · rw [htext]
    exact Int.ofNat_le.2 (stop_le_length_of_stands hstands)
  · rw [htext, replace_around hstands]
    exact (Definition.find?_eq_some_iff hopen).2
      ⟨before, head, closed, rfl, stands_widened hopen hclose hstands hused hmode⟩
  · rw [hwidening]
    rfl
  · intro s'
    rw [widening_widened mode s' hused]
    exact ⟨rfl, rfl⟩

/-- The annotation of an earlier start runs into the parameter list and ends there. -/
theorem find?_widened_behind_annotation :
    let s : Snapshot := ⟨Path.ofText "a.tsx".toList,
      "const A = ({ b }: P const A = ({ t = f() }) => 1".toList, none⟩
    let d : Definition := ⟨"A".toList, .arrow, " t = f() ".toList, 32⟩
    Definition.find? s.text "A".toList = some d ∧ (∃ prop ∈ ["size".toList], prop ∉ d.props) ∧
      ∃ f text, (widening .append s d ["size".toList]).plan.files = [f] ∧ f.apply = .ok text ∧
        Definition.find? text "A".toList = some { d with raw := " t = f(), size ".toList } := by
  intro s d
  have hd : Definition.find? s.text "A".toList = some d := by
    rw [Definition.find?_eq_some_iff (by decide)]
    exact ⟨"const A = ({ b }: P ".toList, "const A = (".toList, ") => 1".toList, rfl,
      ⟨rfl, rfl, by decide, by decide, by decide, by decide, by decide, fun _ => by decide⟩⟩
  have hused : ∀ prop ∈ ["size".toList], isIdentifier prop = true := by decide
  have hnew : ∃ prop ∈ ["size".toList], prop ∉ d.props := by decide
  have hraw : widen .append d.raw (widening .append s d ["size".toList]).merged
      (widening .append s d ["size".toList]).added = " t = f(), size ".toList := by decide
  obtain ⟨f, text, hfiles, -, happly, d', hd', rfl, -⟩ :=
    find?_widened (by decide) hd hused hnew (Or.inl rfl)
  exact ⟨hd, hnew, f, text, hfiles, happly, hraw ▸ hd'⟩

end Sync

end PropAccord
