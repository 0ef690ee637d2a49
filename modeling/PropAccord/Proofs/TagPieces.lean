import PropAccord.Component.Tag
import PropAccord.Proofs.Attributes

/-!
# Tags by pieces

The closing brackets cut a text into pieces. A tag runs from its opening bracket to the end of a
piece, so each piece that a closing bracket ends holds at most one tag of a component: it begins
where the name first stands behind an opening bracket and ends at a word boundary. Tags of different
components in one piece end together. Only names of components are looked for here.
-/

namespace PropAccord

set_option autoImplicit false

theorem Text.after?_append {token : Text} {mark : Char} (h : mark ∉ token) (s t : Text) :
    Text.after? token (s ++ mark :: t) = (Text.after? token s).map (· ++ mark :: t) := by
  induction token generalizing s with
  | nil => simp [Text.after?]
  | cons a token ih =>
    have ha : a ≠ mark := fun he => h (he ▸ List.mem_cons_self)
    cases s with
    | nil => simp [Text.after?, ha]
    | cons c s =>
      simp only [List.cons_append, Text.after?]
      split
      · exact ih (fun hm => h (List.mem_cons_of_mem a hm)) s
      · rfl

namespace Tag

theorem read?_eq_some_iff {pattern : NamePattern} {s : Text} {r : Reading} :
    read? pattern s = some r ↔ ∃ text rest, s = '<' :: text ∧
      pattern.read? text = some (r.component, rest) ∧
      isBoundary (('<' :: r.component).getLast?) rest.head? = true ∧
      closing? rest = some (r.region, r.selfClosing, r.after) := by
  constructor
  · intro h
    unfold read? at h
    split at h
    · rename_i text
      simp only [Option.bind_eq_bind, Option.bind_eq_some_iff, Prod.exists] at h
      obtain ⟨name, rest, hname, h⟩ := h
      split at h
      · rename_i hboundary
        obtain ⟨⟨region, closed, after⟩, hclosing, hr⟩ := Option.bind_eq_some_iff.1 h
        cases hr
        exact ⟨text, rest, rfl, hname, hboundary, hclosing⟩
      · cases h
    · cases h
  · rintro ⟨text, rest, rfl, hname, hboundary, hclosing⟩
    simp only [read?, hname, Option.bind_eq_bind, Option.bind_some, hboundary, if_true, hclosing]
    rfl

theorem length_eq_of_closing? {text region after : Text} {closed : Bool}
    (h : closing? text = some (region, closed, after)) :
    text.length = region.length + (if closed then 2 else 1) + after.length := by
  induction text using closing?.induct generalizing region after with
  | case1 => simp [closing?] at h
  | case2 rest =>
    simp only [closing?, Option.some.injEq, Prod.mk.injEq] at h
    obtain ⟨rfl, rfl, rfl⟩ := h
    simp only [List.length_cons, List.length_nil, if_true]
    omega
  | case3 rest =>
    simp only [closing?, Option.some.injEq, Prod.mk.injEq] at h
    obtain ⟨rfl, rfl, rfl⟩ := h
    simp [Nat.add_comm]
  | case4 c rest h₁ h₂ ih =>
    rw [closing?] at h
    · obtain ⟨⟨region', closed', after'⟩, h', heq⟩ := Option.map_eq_some_iff.1 h
      simp only [Prod.mk.injEq] at heq
      obtain ⟨rfl, rfl, rfl⟩ := heq
      have := ih h'
      simp only [List.length_cons]
      omega
    · exact h₁
    · exact h₂

theorem length_eq_of_read? {pattern : NamePattern} {s : Text} {r : Reading}
    (h : read? pattern s = some r) : s.length = r.length + r.after.length := by
  obtain ⟨text, rest, rfl, hname, -, hclosing⟩ := read?_eq_some_iff.1 h
  have hrest := NamePattern.length_read? hname
  have hregion := length_eq_of_closing? hclosing
  rw [Reading.length, List.length_cons]
  omega

/-- Tags stand in the text one behind the other, each with the place for attributes inside it. -/
theorem scanFrom_ordered (pattern : NamePattern) (offset : Nat) (t : Text) :
    (∀ tag ∈ scanFrom pattern offset t, offset ≤ tag.start ∧ tag.start < tag.insertAt ∧
      tag.insertAt < tag.stop ∧ tag.stop ≤ offset + t.length) ∧
    (scanFrom pattern offset t).Pairwise fun tag later => tag.stop ≤ later.start := by
  induction offset, t using scanFrom.induct pattern with
  | case1 offset =>
    rw [scanFrom_nil]
    exact ⟨nofun, .nil⟩
  | case2 offset c rest r hr ih =>
    rw [scanFrom_of_read? offset hr, List.forall_mem_cons, List.pairwise_cons]
    have hlength := length_eq_of_read? hr
    refine ⟨⟨?_, fun tag htag => ?_⟩, fun tag htag => (ih.1 tag htag).1, ih.2⟩
    · have hmark : 1 ≤ if r.selfClosing then 2 else 1 := by split <;> omega
      rw [hlength]
      simp only [Reading.tag, Reading.length]
      omega
    · have := ih.1 tag htag
      omega
  | case3 offset c rest hr ih =>
    rw [scanFrom_of_read?_eq_none offset hr]
    refine ⟨fun tag htag => ?_, ih.2⟩
    have := ih.1 tag htag
    rw [List.length_cons]
    omega

/-- Every tag that is found was read somewhere. -/
theorem exists_read?_of_mem_scanFrom {pattern : NamePattern} {offset : Nat} {t : Text} {tag : Tag}
    (h : tag ∈ scanFrom pattern offset t) :
    ∃ s r start, read? pattern s = some r ∧ tag = r.tag start := by
  induction offset, t using scanFrom.induct pattern with
  | case1 offset =>
    rw [scanFrom_nil] at h
    cases h
  | case2 offset c rest r hr ih =>
    rw [scanFrom_of_read? offset hr] at h
    rcases List.mem_cons.1 h with rfl | h
    · exact ⟨c :: rest, r, offset, hr, rfl⟩
    · exact ih h
  | case3 offset c rest hr ih =>
    rw [scanFrom_of_read?_eq_none offset hr] at h
    exact ih h

/-- No tag is found exactly if none is read anywhere. -/
theorem scanFrom_eq_nil_iff {pattern : NamePattern} {offset : Nat} {t : Text} :
    scanFrom pattern offset t = [] ↔ ∀ s, s <:+ t → read? pattern s = none := by
  induction offset, t using scanFrom.induct pattern with
  | case1 offset =>
    rw [scanFrom_nil]
    refine ⟨fun _ s hs => ?_, fun _ => rfl⟩
    rw [List.suffix_nil.1 hs]
    rfl
  | case2 offset c rest r hr ih =>
    rw [scanFrom_of_read? offset hr]
    refine ⟨nofun, fun h => ?_⟩
    rw [h _ List.suffix_rfl] at hr
    cases hr
  | case3 offset c rest hr ih =>
    rw [scanFrom_of_read?_eq_none offset hr, ih]
    constructor
    · intro h s hs
      rcases List.suffix_cons_iff.1 hs with rfl | hs
      · exact hr
      · exact h s hs
    · intro h s hs
      exact h s (hs.trans (List.suffix_cons c rest))

theorem isComponentName_of_mem_scan {t : Text} {tag : Tag} (h : tag ∈ scan .anyComponent t) :
    isComponentName tag.component = true := by
  obtain ⟨s, r, start, hr, rfl⟩ := exists_read?_of_mem_scanFrom h
  change isComponentName r.component = true
  unfold read? at hr
  split at hr
  · simp only [Option.bind_eq_bind, Option.bind_eq_some_iff, Prod.exists] at hr
    obtain ⟨name, rest, hname, hr⟩ := hr
    split at hr
    · obtain ⟨_, _, hr⟩ := Option.bind_eq_some_iff.1 hr
      cases hr
      exact isComponentName_of_read? hname
    · cases hr
  · cases hr

theorem isIdentifier_of_mem_attributes {pattern : NamePattern} {t : Text} {tag : Tag}
    (h : tag ∈ scan pattern t) : ∀ name ∈ tag.attributes, isIdentifier name = true := by
  obtain ⟨s, r, start, -, rfl⟩ := exists_read?_of_mem_scanFrom h
  intro name hname
  exact Attribute.isIdentifier_of_mem_names hname

/-- The end of a piece has a slash before the closing bracket. -/
def slashed (body : Text) : Bool := body.getLast? = some '/'

/-- The piece without the slash at its end. -/
def stem (body : Text) : Text := if slashed body then body.dropLast else body

theorem stem_append_slash (body : Text) :
    stem body ++ (if slashed body then ['/'] else []) = body := by
  by_cases h : slashed body = true
  · have hl : body.getLast? = some '/' := by simpa [slashed] using h
    have hne : body ≠ [] := by
      rintro rfl
      simp at hl
    rw [List.getLast?_eq_some_getLast hne, Option.some.injEq] at hl
    rw [stem, if_pos h, if_pos h, ← hl, List.dropLast_concat_getLast hne]
  · simp [stem, h]

theorem names_stem (body : Text) : Attribute.names (stem body) = Attribute.names body := by
  by_cases h : slashed body = true
  · have hb := stem_append_slash body
    rw [if_pos h] at hb
    rw [← Attribute.names_append_slash, hb]
  · simp [stem, h]

theorem length_stem (body : Text) :
    (stem body).length + (if slashed body then 2 else 1) = body.length + 1 := by
  have hb := congrArg List.length (stem_append_slash body)
  rw [List.length_append] at hb
  split at hb <;> simp_all

theorem slashed_cons {c : Char} {body : Text} (h : body ≠ []) :
    slashed (c :: body) = slashed body := by
  rw [slashed, slashed, List.getLast?_cons_of_ne_nil h]

theorem stem_cons {c : Char} {body : Text} (h : body ≠ []) : stem (c :: body) = c :: stem body := by
  rw [stem, stem, slashed_cons h]
  split
  · exact List.dropLast_cons_of_ne_nil h
  · rfl

theorem closing?_append {body : Text} (h : '>' ∉ body) (after : Text) :
    closing? (body ++ '>' :: after) = some (stem body, slashed body, after) := by
  induction body with
  | nil => simp [closing?, stem, slashed]
  | cons c body ih =>
    have hc : c ≠ '>' := fun he => h (he ▸ List.mem_cons_self)
    have ih := ih (fun hm => h (List.mem_cons_of_mem c hm))
    cases body with
    | nil =>
      by_cases hs : c = '/'
      · subst c
        simp [closing?, stem, slashed]
      · rw [List.singleton_append, closing?]
        · simp [closing?, stem, slashed, hs]
        · simp [hs]
        · simp [hc]
    | cons d body =>
      have hd : d ≠ '>' := fun he => h (by simp [he])
      have hne : d :: body ≠ [] := List.cons_ne_nil d body
      rw [List.cons_append, closing?, ih, stem_cons hne, slashed_cons hne]
      · rfl
      · simp [hd]
      · simp [hc]

theorem closing?_eq_none {t : Text} (h : '>' ∉ t) : closing? t = none := by
  induction t using closing?.induct with
  | case1 => rfl
  | case2 rest => simp at h
  | case3 rest => simp at h
  | case4 c rest h₁ h₂ ih =>
    rw [closing?, ih (fun hm => h (List.mem_cons_of_mem c hm)), Option.map_none]
    · exact h₁
    · exact h₂

/-- What follows an opening bracket and the name, where a text begins with them and the name ends. -/
def opened? (name text : Text) : Option Text :=
  (Text.after? ('<' :: name) text).filter fun body => !body.head?.any isWordChar

/-- The tag in a piece: the number of characters before it, and what follows its name. -/
def inPiece? (name : Text) : Text → Option (Nat × Text)
  | [] => none
  | c :: rest =>
    match opened? name (c :: rest) with
    | some body => some (0, body)
    | none => (inPiece? name rest).map fun (n, body) => (n + 1, body)

theorem opened?_eq_some_iff {name text body : Text} : opened? name text = some body ↔
    text = '<' :: name ++ body ∧ body.head?.any isWordChar = false := by
  rw [opened?, Option.filter_eq_some_iff, Text.after?_eq_some_iff, Bool.not_eq_true']

theorem opened?_eq_some {name text body : Text} (h : opened? name text = some body) :
    text = '<' :: name ++ body :=
  (opened?_eq_some_iff.1 h).1

/-- A tag that opens a piece takes up the whole of it and the closing bracket. -/
theorem length_of_opened? {name piece body rest : Text} (h : opened? name piece = some body) :
    Reading.length ⟨name, stem body, slashed body, rest⟩ = piece.length + 1 := by
  have hstem := length_stem body
  rw [opened?_eq_some h, List.length_append, List.length_cons]
  simp only [Reading.length]
  omega

theorem inPiece?_eq_some {name piece body : Text} {n : Nat}
    (h : inPiece? name piece = some (n, body)) :
    ∃ before, before.length = n ∧ piece = before ++ '<' :: name ++ body := by
  induction piece generalizing n with
  | nil => simp [inPiece?] at h
  | cons c rest ih =>
    rw [inPiece?] at h
    split at h
    · rename_i body' hb
      simp only [Option.some.injEq, Prod.mk.injEq] at h
      obtain ⟨rfl, rfl⟩ := h
      exact ⟨[], rfl, opened?_eq_some hb⟩
    · obtain ⟨⟨m, body'⟩, hm, heq⟩ := Option.map_eq_some_iff.1 h
      simp only [Prod.mk.injEq] at heq
      obtain ⟨rfl, rfl⟩ := heq
      obtain ⟨before, hlen, hpiece⟩ := ih hm
      exact ⟨c :: before, by simp [hlen], by simp [hpiece]⟩

theorem inPiece?_eq_none_of_not_mem (name : Text) {piece : Text} (h : '<' ∉ piece) :
    inPiece? name piece = none := by
  cases hp : inPiece? name piece with
  | none => rfl
  | some found =>
    obtain ⟨before, -, heq⟩ := inPiece?_eq_some hp
    exact absurd (by simp [heq]) h

theorem read?_eq_none_of_not_mem (name : Text) {t : Text} (h : '>' ∉ t) :
    read? (.exactly name) t = none := by
  cases hr : read? (.exactly name) t with
  | none => rfl
  | some r =>
    exfalso
    unfold read? at hr
    split at hr
    · rename_i text
      simp only [NamePattern.read?, Option.bind_eq_bind, Option.bind_eq_some_iff, Prod.exists,
        Option.map_eq_some_iff] at hr
      obtain ⟨_, rest, ⟨body, hb, heq⟩, hr⟩ := hr
      have hrest : '>' ∉ body := by
        intro hm
        apply h
        rw [Text.after?_eq_some_iff.1 hb]
        exact List.mem_cons_of_mem _ (List.mem_append_right name hm)
      simp only [Prod.mk.injEq] at heq
      rw [← heq.2, closing?_eq_none hrest] at hr
      simp at hr
    · simp at hr

theorem scanFrom_of_not_mem (name : Text) {t : Text} (h : '>' ∉ t) (offset : Nat) :
    scanFrom (.exactly name) offset t = [] := by
  induction t generalizing offset with
  | nil => exact scanFrom_nil _ offset
  | cons c t ih =>
    rw [scanFrom_of_read?_eq_none offset (read?_eq_none_of_not_mem name h)]
    exact ih (fun hm => h (List.mem_cons_of_mem c hm)) _

theorem head?_any_append (body rest : Text) :
    (body ++ '>' :: rest).head?.any isWordChar = body.head?.any isWordChar := by
  cases body with
  | nil => exact (by decide : isWordChar '>' = false)
  | cons d body => rfl

section Scan

variable {name : Text} (hname : isComponentName name = true)
include hname

/-- Whether a text ends with a slash is seen behind the name, which has none. -/
theorem slashed_append_name (before body : Text) :
    slashed (before ++ '<' :: name ++ body) = slashed body := by
  cases body with
  | cons c body =>
    rw [slashed, slashed, List.getLast?_append_of_ne_nil _ (List.cons_ne_nil c body)]
  | nil =>
    have hne := identifier_ne_nil (isIdentifier_of_isComponentName hname)
    have hlast : name.getLast hne ≠ '/' := by
      intro heq
      have hc := isNameChar_of_mem_componentName hname _ (List.getLast_mem hne)
      rw [heq] at hc
      exact absurd hc (by decide)
    rw [List.append_nil, slashed, List.getLast?_append_of_ne_nil _ (List.cons_ne_nil '<' name),
      List.getLast?_cons_of_ne_nil hne, List.getLast?_eq_some_getLast hne]
    simp [slashed, hlast]

theorem opened?_append (piece rest : Text) :
    opened? name (piece ++ '>' :: rest) = (opened? name piece).map (· ++ '>' :: rest) := by
  have hmark : '>' ∉ '<' :: name := List.not_mem_cons_of_ne_of_not_mem (by decide)
    (not_mem_of_isComponentName hname (by decide))
  rw [opened?, opened?, Text.after?_append hmark]
  cases Text.after? ('<' :: name) piece with
  | none => rfl
  | some body =>
    rw [Option.map_some, Option.filter_some, Option.filter_some, head?_any_append]
    split <;> rfl

theorem read?_append {piece : Text} (h : '>' ∉ piece) (rest : Text) :
    read? (.exactly name) (piece ++ '>' :: rest) =
      (opened? name piece).map fun body => ⟨name, stem body, slashed body, rest⟩ := by
  have hmark : '>' ∉ name := not_mem_of_isComponentName hname (by decide)
  cases piece with
  | nil => simp [read?, opened?, Text.after?]
  | cons c piece =>
    by_cases hc : c = '<'
    · subst c
      have hbody {body : Text} (hb : Text.after? name piece = some body) : '>' ∉ body := by
        intro hm
        apply h
        rw [Text.after?_eq_some_iff.1 hb]
        exact List.mem_cons_of_mem _ (List.mem_append_right name hm)
      simp only [List.cons_append, read?, NamePattern.read?, Text.after?_append hmark, opened?,
        Text.after?, if_true]
      cases hb : Text.after? name piece with
      | none => rfl
      | some body =>
        simp only [Option.map_some, Option.bind_eq_bind, Option.bind_some,
          isBoundary_after_componentName hname, head?_any_append, closing?_append (hbody hb),
          Option.filter_some]
        split <;> rfl
    · have hc' : '<' ≠ c := Ne.symm hc
      have ho : opened? name (c :: piece) = none := by simp [opened?, Text.after?, hc']
      rw [ho, Option.map_none, List.cons_append, read?]
      simp [hc]

/-- A tag that is read takes up a piece of the text. -/
theorem exists_piece_of_read? {s : Text} {r : Reading} (h : read? (.exactly name) s = some r) :
    ∃ piece body rest, '>' ∉ piece ∧ opened? name piece = some body ∧ s = piece ++ '>' :: rest ∧
      r = ⟨name, stem body, slashed body, rest⟩ := by
  have hmark : '>' ∈ s := by
    by_contra hnone
    rw [read?_eq_none_of_not_mem name hnone] at h
    cases h
  obtain ⟨piece, rest, rfl, hpiece⟩ := List.eq_append_cons_of_mem hmark
  rw [read?_append hname hpiece, Option.map_eq_some_iff] at h
  obtain ⟨body, hbody, hr⟩ := h
  exact ⟨piece, body, rest, hpiece, hbody, rfl, hr.symm⟩

/-- The tags of a text are the tag in its first piece, if there is one, and those of the rest. -/
theorem scanFrom_append {piece : Text} (h : '>' ∉ piece) (offset : Nat) (rest : Text) :
    scanFrom (.exactly name) offset (piece ++ '>' :: rest) =
      ((inPiece? name piece).map fun (n, body) =>
        Reading.tag ⟨name, stem body, slashed body, rest⟩ (offset + n)).toList ++
      scanFrom (.exactly name) (offset + piece.length + 1) rest := by
  induction piece generalizing offset with
  | nil =>
    have hr := read?_append hname h rest
    rw [List.nil_append] at hr ⊢
    rw [scanFrom_of_read?_eq_none offset hr]
    rfl
  | cons c piece ih =>
    have hr := read?_append hname h rest
    rw [List.cons_append] at hr ⊢
    rw [inPiece?]
    cases hb : opened? name (c :: piece) with
    | some body =>
      rw [hb, Option.map_some] at hr
      rw [scanFrom_of_read? offset hr, length_of_opened? hb]
      rfl
    | none =>
      rw [hb, Option.map_none] at hr
      rw [scanFrom_of_read?_eq_none offset hr, ih (fun hm => h (List.mem_cons_of_mem c hm))]
      cases inPiece? name piece with
      | none => simp [Nat.add_assoc, Nat.add_comm 1]
      | some found => simp [Nat.add_assoc, Nat.add_comm 1]

/-! ## Whether there is a tag -/

/-- A tag is read where the name is opened and a closing bracket follows. -/
theorem isSome_read?_iff {s : Text} :
    (read? (.exactly name) s).isSome = true ↔ ∃ body, opened? name s = some body ∧ '>' ∈ body := by
  by_cases hmark : '>' ∈ s
  · obtain ⟨piece, rest, rfl, hpiece⟩ := List.eq_append_cons_of_mem hmark
    rw [read?_append hname hpiece, opened?_append hname]
    cases opened? name piece <;> simp
  · rw [read?_eq_none_of_not_mem name hmark]
    refine ⟨nofun, ?_⟩
    rintro ⟨body, hbody, hmem⟩
    rw [opened?_eq_some hbody] at hmark
    exact absurd (List.mem_append_right _ hmem) hmark

theorem scan_ne_nil_iff {t : Text} : scan (.exactly name) t ≠ [] ↔
    ∃ s body, s <:+ t ∧ opened? name s = some body ∧ '>' ∈ body := by
  rw [Ne, scan, scanFrom_eq_nil_iff]
  constructor
  · intro h
    by_contra hnone
    apply h
    intro s hs
    by_contra hread
    obtain ⟨body, hbody, hmem⟩ := (isSome_read?_iff hname).1 (Option.isSome_iff_ne_none.2 hread)
    exact hnone ⟨s, body, hs, hbody, hmem⟩
  · rintro ⟨s, body, hs, hbody, hmem⟩ h
    exact Option.isSome_iff_ne_none.1 ((isSome_read?_iff hname).2 ⟨body, hbody, hmem⟩) (h s hs)

end Scan

end Tag

namespace Usage

variable {t : Text} {usage : Usage}

theorem isComponentName_of_mem_scan (h : usage ∈ scan t) : isComponentName usage.component = true := by
  obtain ⟨tag, htag, rfl⟩ := List.mem_map.1 h
  exact Tag.isComponentName_of_mem_scan (List.mem_filter.1 htag).1

theorem isIdentifier_of_mem_scan (h : usage ∈ scan t) :
    ∀ prop ∈ usage.props, isIdentifier prop = true := by
  obtain ⟨tag, htag, rfl⟩ := List.mem_map.1 h
  exact Tag.isIdentifier_of_mem_attributes (List.mem_filter.1 htag).1

end Usage

end PropAccord
