import PropAccord.Component.Scanner
import PropAccord.Proofs.TagPieces

/-!
# The plain scan for tags

The tags of a component can be looked for from offset to offset: take the first place where the name
is opened and a closing bracket follows, end the tag at the nearest closing bracket, and go on behind
it. Nothing is tried twice here and nothing is given back. The tags that are found are those of this
scan, and each ends with its end mark.
-/

namespace PropAccord.Tag

set_option autoImplicit false

/-- A tag opens at an offset: an opening bracket and the name stand there, a character that belongs to
no word comes next, and from that one on there is a closing bracket. -/
structure OpensAt (name t : Text) (i : Nat) : Prop where
  token : '<' :: name <+: t.drop i
  apart : ∃ c, t[i + 1 + name.length]? = some c ∧ isWordChar c = false
  closed : ∃ j, i + 1 + name.length ≤ j ∧ t[j]? = some '>'

/-- The nearest closing bracket from an offset on. -/
structure ClosesAt (t : Text) (start j : Nat) : Prop where
  behind : start ≤ j
  bracket : t[j]? = some '>'
  nearest : ∀ k, start ≤ k → k < j → t[k]? ≠ some '>'

/-- The tag from an opening bracket to a closing one. A slash directly before the latter belongs to the
end mark, and the attributes are read between the name and the end mark. -/
def between (name t : Text) (i j : Nat) : Tag :=
  let insertAt := if t[j - 1]? = some '/' then j - 1 else j
  { component := name
    start := i
    stop := j + 1
    insertAt
    attributes := Attribute.names ((t.take insertAt).drop (i + 1 + name.length))
    selfClosing := t[j - 1]? = some '/' }

/-- The tags that the plain scan takes from an offset on. -/
inductive Scanned (name t : Text) : Nat → List Tag → Prop where
  | done {start : Nat} : (∀ i, start ≤ i → ¬ OpensAt name t i) → Scanned name t start []
  | tag {start i j : Nat} {tags : List Tag} : start ≤ i → OpensAt name t i →
      (∀ k, start ≤ k → k < i → ¬ OpensAt name t k) → ClosesAt t (i + 1 + name.length) j →
      Scanned name t (j + 1) tags → Scanned name t start (between name t i j :: tags)

theorem ClosesAt.unique {t : Text} {start j j' : Nat} (h : ClosesAt t start j)
    (h' : ClosesAt t start j') : j = j' := by
  rcases Nat.lt_trichotomy j j' with hlt | heq | hlt
  · exact absurd h.bracket (h'.nearest j h.behind hlt)
  · exact heq
  · exact absurd h'.bracket (h.nearest j' h'.behind hlt)

namespace Scanned

variable {name t : Text} {start : Nat} {tags : List Tag}

theorem unique {tags' : List Tag} (h : Scanned name t start tags) (h' : Scanned name t start tags') :
    tags = tags' := by
  induction h generalizing tags' with
  | done hnone =>
    cases h' with
    | done => rfl
    | tag hfrom hopens => exact absurd hopens (hnone _ hfrom)
  | @tag start i j tags hfrom hopens hfirst hcloses _ ih =>
    cases h' with
    | done hnone => exact absurd hopens (hnone i hfrom)
    | @tag _ i' j' tags' hfrom' hopens' hfirst' hcloses' hrest' =>
      obtain rfl : i = i' := by
        rcases Nat.lt_trichotomy i i' with hlt | heq | hlt
        · exact absurd hopens (hfirst' i hfrom hlt)
        · exact heq
        · exact absurd hopens' (hfirst i' hfrom' hlt)
      obtain rfl := hcloses.unique hcloses'
      rw [ih hrest']

/-- Where no tag opens, the scan goes on to the next offset. -/
theorem of_succ (hnot : ¬ OpensAt name t start) (h : Scanned name t (start + 1) tags) :
    Scanned name t start tags := by
  have hlater : ∀ i, start ≤ i → OpensAt name t i → start + 1 ≤ i := by
    intro i hi hopens
    rcases Nat.eq_or_lt_of_le hi with rfl | hlt
    · exact absurd hopens hnot
    · exact hlt
  cases h with
  | done hnone => exact .done fun i hi hopens => hnone i (hlater i hi hopens) hopens
  | tag hfrom hopens hfirst hcloses hrest =>
    exact .tag (Nat.le_of_succ_le hfrom) hopens
      (fun k hk hlt hopens => hfirst k (hlater k hk hopens) hlt hopens) hcloses hrest

theorem exists_between (h : Scanned name t start tags) : ∀ tag ∈ tags, ∃ i j,
    ClosesAt t (i + 1 + name.length) j ∧ tag = between name t i j := by
  induction h with
  | done => exact nofun
  | @tag start i j tags _ _ _ hcloses _ ih =>
    exact List.forall_mem_cons.2 ⟨⟨i, j, hcloses, rfl⟩, ih⟩

end Scanned

/-- What stands from the offset for attributes to the end of a tag is its end mark. -/
theorem endMark_between {name t : Text} {i j : Nat} (h : ClosesAt t (i + 1 + name.length) j) :
    (t.take (between name t i j).stop).drop (between name t i j).insertAt =
      if (between name t i j).selfClosing then ['/', '>'] else ['>'] := by
  have hdrop {k : Nat} {c : Char} (hc : t[k]? = some c) : t.drop k = c :: t.drop (k + 1) := by
    obtain ⟨hk, rfl⟩ := List.getElem?_eq_some_iff.1 hc
    exact List.drop_eq_getElem_cons hk
  have hbracket := hdrop h.bracket
  rw [List.drop_take, between]
  by_cases hslash : t[j - 1]? = some '/'
  · have hpositive : j - 1 + 1 = j := by
      have := h.behind
      omega
    have hlength : j + 1 - (j - 1) = 2 := by omega
    simp only [hslash, if_true, decide_true, hlength, hdrop hslash, hpositive, hbracket]
    rfl
  · simp only [hslash, if_false, decide_false, Nat.add_sub_cancel_left, hbracket]
    rfl

section

variable {name : Text} (hname : isComponentName name = true)
include hname

omit hname in
theorem length_front (before : Text) :
    (before ++ '<' :: name).length = before.length + 1 + name.length := by
  rw [List.length_append, List.length_cons]
  omega

/-- A tag opens where one is read. -/
theorem opensAt_iff (before s : Text) :
    OpensAt name (before ++ s) before.length ↔ (read? (.exactly name) s).isSome = true := by
  rw [isSome_read?_iff hname]
  have hbehind (body : Text) (k : Nat) :
      (before ++ ('<' :: name ++ body))[before.length + 1 + name.length + k]? = body[k]? := by
    rw [← List.append_assoc, ← length_front, List.getElem?_append_right (Nat.le_add_right _ k),
      Nat.add_sub_cancel_left]
  constructor
  · rintro ⟨⟨body, hbody⟩, ⟨c, hc, hword⟩, j, hj, hbracket⟩
    obtain ⟨k, rfl⟩ := Nat.exists_eq_add_of_le hj
    rw [List.drop_left] at hbody
    rw [← hbody, hbehind] at hbracket
    rw [← hbody, ← Nat.add_zero (_ + _), hbehind, ← List.head?_eq_getElem?] at hc
    refine ⟨body, opened?_eq_some_iff.2 ⟨hbody.symm, ?_⟩, List.mem_of_getElem? hbracket⟩
    rw [hc, Option.any_some, hword]
  · rintro ⟨body, hopened, hmem⟩
    obtain ⟨rfl, hword⟩ := opened?_eq_some_iff.1 hopened
    obtain ⟨c, rest, rfl⟩ := List.exists_cons_of_ne_nil (List.ne_nil_of_mem hmem)
    obtain ⟨k, hk⟩ := List.getElem?_of_mem hmem
    refine ⟨?_, ⟨c, hbehind (c :: rest) 0, hword⟩, _, Nat.le_add_right _ k, ?_⟩
    · rw [List.drop_left]
      exact List.prefix_append _ _
    · rw [hbehind, hk]

omit hname in
theorem closesAt_append (front : Text) {body : Text} (h : '>' ∉ body) (after : Text) :
    ClosesAt (front ++ (body ++ '>' :: after)) front.length (front.length + body.length) := by
  refine ⟨Nat.le_add_right _ _, ?_, fun k hk hlt => ?_⟩
  · rw [← List.append_assoc, ← List.length_append, List.getElem?_append_right (Nat.le_refl _),
      Nat.sub_self]
    rfl
  · obtain ⟨k, rfl⟩ := Nat.exists_eq_add_of_le hk
    have hinside : k < body.length := by omega
    rw [List.getElem?_append_right hk, Nat.add_sub_cancel_left, List.getElem?_append_left hinside]
    exact fun hmark => h (List.mem_of_getElem? hmark)

/-- The tag that is read is the one between the brackets. -/
theorem between_eq (before body after : Text) :
    between name (before ++ ('<' :: name ++ (body ++ '>' :: after))) before.length
        (before.length + 1 + name.length + body.length) =
      Reading.tag ⟨name, stem body, slashed body, after⟩ before.length := by
  have hlast : (before ++ ('<' :: name ++ (body ++ '>' :: after)))[
      before.length + 1 + name.length + body.length - 1]? = some '/' ↔ slashed body = true := by
    rw [← slashed_append_name hname before, slashed, decide_eq_true_eq, List.getLast?_eq_getElem?]
    have hlength : (before ++ '<' :: name ++ body).length =
        before.length + 1 + name.length + body.length := by
      rw [List.length_append, length_front]
    rw [← hlength, ← List.append_assoc, ← List.append_assoc, List.getElem?_append_left (by omega)]
  have hstem := length_stem body
  have hinsert : (if slashed body = true then
        before.length + 1 + name.length + body.length - 1
      else before.length + 1 + name.length + body.length) =
        before.length + 1 + name.length + (stem body).length := by
    split at hstem
    · rename_i hslash
      rw [if_pos hslash]
      omega
    · rename_i hslash
      rw [if_neg hslash]
      omega
  have hregion : ((before ++ ('<' :: name ++ (body ++ '>' :: after))).take
      (before.length + 1 + name.length + (stem body).length)).drop (before.length + 1 + name.length) =
        stem body := by
    have hprefix : stem body <+: body ++ '>' :: after :=
      List.IsPrefix.trans ⟨_, stem_append_slash body⟩ (List.prefix_append body _)
    rw [List.drop_take, Nat.add_sub_cancel_left, ← length_front, ← List.append_assoc, List.drop_left]
    exact (List.prefix_iff_eq_take.1 hprefix).symm
  simp only [between, hlast, hinsert, hregion, Reading.tag, Reading.length, Bool.decide_eq_true,
    mk.injEq, true_and, and_true]
  omega

theorem scanned_scanFrom (before s : Text) :
    Scanned name (before ++ s) before.length (scanFrom (.exactly name) before.length s) := by
  generalize hoffset : before.length = offset
  induction offset, s using scanFrom.induct (.exactly name) generalizing before with
  | case1 offset =>
    rw [scanFrom_nil]
    refine .done fun i hi hopens => ?_
    have hempty : (before ++ []).drop i = [] := List.drop_eq_nil_of_le (by simpa [hoffset] using hi)
    have hprefix := hopens.token
    rw [hempty] at hprefix
    exact List.cons_ne_nil _ _ (List.prefix_nil.1 hprefix)
  | case2 offset c rest r hr ih =>
    subst hoffset
    have hopens : OpensAt name (before ++ c :: rest) before.length :=
      (opensAt_iff hname before _).2 (Option.isSome_iff_exists.2 ⟨r, hr⟩)
    obtain ⟨piece, body, after, hpiece, hbody, htext, rfl⟩ := exists_piece_of_read? hname hr
    have hlength : Reading.length ⟨name, stem body, slashed body, after⟩ = _ :=
      length_of_opened? hbody
    obtain rfl := opened?_eq_some hbody
    have hend : '>' ∉ body := fun hm => hpiece (List.mem_append_right _ hm)
    have hcloses := closesAt_append (before ++ '<' :: name) hend after
    rw [length_front, List.append_assoc] at hcloses
    have hstop : before.length + Reading.length ⟨name, stem body, slashed body, after⟩ =
        before.length + 1 + name.length + body.length + 1 := by
      rw [hlength, List.length_append, List.length_cons]
      omega
    have hrest := ih (before ++ ('<' :: name ++ body ++ ['>']))
      (by rw [hlength, List.length_append, List.length_append]; rfl)
    rw [scanFrom_of_read? _ hr]
    rw [List.append_assoc] at htext
    rw [htext] at hopens ⊢
    rw [← between_eq hname, hstop]
    refine .tag (Nat.le_refl _) hopens (fun k hk hlt => absurd hk (Nat.not_le.2 hlt)) hcloses ?_
    rw [hstop] at hrest
    simpa only [List.append_assoc, List.singleton_append] using hrest
  | case3 offset c rest hr ih =>
    rw [scanFrom_of_read?_eq_none offset hr]
    have hnext := ih (before ++ [c]) (by rw [List.length_append, hoffset]; rfl)
    rw [List.append_assoc, List.singleton_append] at hnext
    refine Scanned.of_succ (fun hopens => ?_) hnext
    rw [← hoffset, opensAt_iff hname, hr] at hopens
    cases hopens

theorem scanned_iff {t : Text} {tags : List Tag} :
    Scanned name t 0 tags ↔ tags = scan (.exactly name) t := by
  have hscanned := scanned_scanFrom hname [] t
  constructor
  · exact fun h => h.unique hscanned
  · rintro rfl
    exact hscanned

end

/-- The tags that are found for a component are exactly those that the plain scan takes. They stand one
behind the other in the text, and from the offset for attributes on each has its end mark only. -/
theorem found_by_plain_scan {name : Text} (hname : isComponentName name = true) (t : Text) :
    (∀ tags, Scanned name t 0 tags ↔ tags = Scanner.lexical.findTags t name) ∧
    (Scanner.lexical.findTags t name).Pairwise (fun tag later => tag.stop ≤ later.start) ∧
    ∀ tag ∈ Scanner.lexical.findTags t name,
      tag.start < tag.insertAt ∧ tag.insertAt < tag.stop ∧ tag.stop ≤ t.length ∧
        (t.take tag.stop).drop tag.insertAt = if tag.selfClosing then ['/', '>'] else ['>'] := by
  obtain ⟨hbounds, hordered⟩ := scanFrom_ordered (.exactly name) 0 t
  refine ⟨fun _ => scanned_iff hname, hordered, fun tag htag => ?_⟩
  obtain ⟨-, hstart, hstop, hend⟩ := hbounds tag htag
  obtain ⟨i, j, hcloses, rfl⟩ := ((scanned_iff hname).2 rfl).exists_between tag htag
  exact ⟨hstart, hstop, Nat.zero_add t.length ▸ hend, endMark_between hcloses⟩

/-- A slash right behind the name, two slashes before the bracket, an opening bracket inside a tag, a
name that goes on, and one that no closing bracket follows. -/
theorem found_by_plain_scan_of_slashes :
    let t := "<A/> <Ab x=1> <A x=1 <A y=2//>\n<A é> <A z=3".toList
    isComponentName "A".toList = true ∧
      Scanned "A".toList t 0 (Scanner.lexical.findTags t "A".toList) ∧
      (Scanner.lexical.findTags t "A".toList).map (fun tag => (tag.start, tag.insertAt, tag.stop)) =
        [(0, 2, 4), (14, 28, 30), (31, 35, 36)] ∧
      (t.take 30).drop 28 = ['/', '>'] := by
  intro t
  have hname : isComponentName "A".toList = true := by decide
  have hplaces : (Scanner.lexical.findTags t "A".toList).map
      (fun tag => (tag.start, tag.insertAt, tag.stop)) =
        [(0, 2, 4), (14, 28, 30), (31, 35, 36)] := by decide +kernel
  obtain ⟨hscanned, -, -⟩ := found_by_plain_scan hname t
  exact ⟨hname, (hscanned _).2 rfl, hplaces, by decide⟩

end PropAccord.Tag
