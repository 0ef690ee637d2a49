import PropAccord.Proofs.BraceGroups

/-!
# Alternatives as choices

A pattern with alternatives is the text of a tree whose groups hold options, and it stands for the texts
in which one option is chosen at every group. Expanding does not follow the tree: a group inside an option
is expanded while the options beside it stand unexpanded in the same braces, so those are found again for
every choice in it, and the alternatives come with repetitions. They are the choices all the same, for a
tree is expanded in its place whatever stands around it.
-/

namespace PropAccord

set_option autoImplicit false

namespace Brace

/-! ## Patterns as trees -/

mutual

/-- A pattern as a tree. In an option no comma is a character, for commas stand between options. -/
inductive Template : (nested : Bool) → Type where
  | nil {nested : Bool} : Template nested
  | literal {nested : Bool} (c : Char) (plain : isBrace c = false) (free : nested = true → c ≠ ',')
      (rest : Template nested) : Template nested
  | choice {nested : Bool} (options : Options) (rest : Template nested) : Template nested

inductive Options : Type where
  | last (option : Template true) : Options
  | more (option : Template true) (rest : Options) : Options

end

def Options.toList : Options → List (Template true)
  | .last option => [option]
  | .more option rest => option :: rest.toList

mutual

def Template.text : {nested : Bool} → Template nested → Text
  | _, .nil => []
  | _, .literal c _ _ rest => c :: rest.text
  | _, .choice options rest => '{' :: (options.text ++ '}' :: rest.text)

def Options.text : Options → Text
  | .last option => option.text
  | .more option rest => option.text ++ ',' :: rest.text

end

mutual

/-- The number of groups, those in options included. -/
def Template.size : {nested : Bool} → Template nested → Nat
  | _, .nil => 0
  | _, .literal _ _ _ rest => rest.size
  | _, .choice options rest => options.size + 1 + rest.size

def Options.size : Options → Nat
  | .last option => option.size
  | .more option rest => option.size + rest.size

end

/-- The texts in which one option is chosen at every group that is not left out by another choice. -/
inductive Template.Yields : {nested : Bool} → Template nested → Text → Prop where
  | nil {nested : Bool} : Yields (.nil : Template nested) []
  | literal {nested : Bool} {c : Char} {plain : isBrace c = false} {free : nested = true → c ≠ ','}
      {rest : Template nested} {s : Text} : Yields rest s → Yields (.literal c plain free rest) (c :: s)
  | choice {nested : Bool} {options : Options} {rest : Template nested} {option : Template true}
      {s s' : Text} : option ∈ options.toList → Yields option s → Yields rest s' →
      Yields (.choice options rest) (s ++ s')

mutual

/-- What a template is expanded to: the options of a group are expanded side by side, and each row that
this gives is a group of its own. -/
def Template.expansions : {nested : Bool} → Template nested → List Text
  | _, .nil => [[]]
  | _, .literal c _ _ rest => rest.expansions.map (c :: ·)
  | _, .choice options rest =>
    options.rows.flatMap fun row => row.flatMap fun s => rest.expansions.map (s ++ ·)

def Options.rows : Options → List (List Text)
  | .last option => option.expansions.map fun s => [s]
  | .more option rest => option.expansions.flatMap fun s => rest.rows.map (s :: ·)

end

/-! ## Counting the groups of a tree -/

mutual

theorem Template.foldl_add_text {nested : Bool} (t : Template nested) (opened counted : Nat) :
    t.text.foldl Tally.add ⟨opened, counted⟩ = ⟨opened, counted + t.size⟩ := by
  match t with
  | .nil => rfl
  | .literal c plain free rest =>
    rw [Template.text, List.foldl_cons, Tally.add_of_plain plain, rest.foldl_add_text, Template.size]
  | .choice options rest =>
    have hopen : Tally.add ⟨opened, counted⟩ '{' = ⟨opened + 1, counted⟩ := rfl
    have hclose : Tally.add ⟨opened + 1, counted + options.size⟩ '}' =
      ⟨opened, counted + options.size + 1⟩ := by simp [Tally.add]
    rw [Template.text, List.foldl_cons, hopen, List.foldl_append, options.foldl_add_text,
      List.foldl_cons, hclose, rest.foldl_add_text, Template.size, ← Nat.add_assoc, ← Nat.add_assoc]

theorem Options.foldl_add_text (options : Options) (opened counted : Nat) :
    options.text.foldl Tally.add ⟨opened, counted⟩ = ⟨opened, counted + options.size⟩ := by
  match options with
  | .last option => rw [Options.text, option.foldl_add_text, Options.size]
  | .more option rest =>
    rw [Options.text, List.foldl_append, option.foldl_add_text, List.foldl_cons,
      Tally.add_of_plain (by decide), rest.foldl_add_text, Options.size, Nat.add_assoc]

end

theorem Template.groups_text {nested : Bool} (t : Template nested) : groups t.text = t.size := by
  rw [groups, t.foldl_add_text]
  exact Nat.zero_add t.size

/-! ## Expanding a tree -/

mutual

theorem Template.plain_of_mem_expansions {nested : Bool} (t : Template nested) {s : Text}
    (h : s ∈ t.expansions) : ∀ c ∈ s, isBrace c = false ∧ (nested = true → c ≠ ',') := by
  match t with
  | .nil =>
    rw [List.mem_singleton.1 h]
    exact List.forall_mem_nil _
  | .literal c plain free rest =>
    obtain ⟨s, hs, rfl⟩ := List.mem_map.1 h
    exact List.forall_mem_cons.2 ⟨⟨plain, free⟩, rest.plain_of_mem_expansions hs⟩
  | .choice options rest =>
    simp only [Template.expansions, List.mem_flatMap, List.mem_map] at h
    obtain ⟨row, hrow, a, ha, b, hb, rfl⟩ := h
    intro c hc
    rcases List.mem_append.1 hc with hc | hc
    · obtain ⟨hbrace, hcomma⟩ := options.plain_of_mem_rows hrow ha c hc
      exact ⟨hbrace, fun _ => hcomma⟩
    · exact rest.plain_of_mem_expansions hb c hc

theorem Options.plain_of_mem_rows (options : Options) {row : List Text} {s : Text}
    (hrow : row ∈ options.rows) (hs : s ∈ row) : ∀ c ∈ s, isBrace c = false ∧ c ≠ ',' := by
  match options with
  | .last option =>
    obtain ⟨a, ha, rfl⟩ := List.mem_map.1 hrow
    rw [List.mem_singleton.1 hs]
    intro c hc
    obtain ⟨hbrace, hcomma⟩ := option.plain_of_mem_expansions ha c hc
    exact ⟨hbrace, hcomma rfl⟩
  | .more option rest =>
    simp only [Options.rows, List.mem_flatMap, List.mem_map] at hrow
    obtain ⟨a, ha, others, hothers, rfl⟩ := hrow
    rcases List.mem_cons.1 hs with rfl | hs
    · intro c hc
      obtain ⟨hbrace, hcomma⟩ := option.plain_of_mem_expansions ha c hc
      exact ⟨hbrace, hcomma rfl⟩
    · exact rest.plain_of_mem_rows hothers hs

end

theorem Options.row_ne_nil (options : Options) {row : List Text} (h : row ∈ options.rows) :
    row ≠ [] := by
  match options with
  | .last option =>
    obtain ⟨a, -, rfl⟩ := List.mem_map.1 h
    exact List.cons_ne_nil a []
  | .more option rest =>
    simp only [Options.rows, List.mem_flatMap, List.mem_map] at h
    obtain ⟨a, -, others, -, rfl⟩ := h
    exact List.cons_ne_nil a others

/-- A row in its braces is the first group, and each of its texts takes the place. -/
theorem expand_row {options : Options} {row : List Text} (hrow : row ∈ options.rows) {u : Text}
    (hu : firstGroup? u = none) (after : Text) :
    expand (u ++ '{' :: (Text.join [','] row ++ '}' :: after)) =
      row.flatMap fun s => expand (u ++ (s ++ after)) := by
  have hplain : ∀ c ∈ Text.join [','] row, isBrace c = false := by
    intro c hc
    rcases Text.mem_join hc with hcomma | ⟨s, hs, hc⟩
    · rw [List.mem_singleton.1 hcomma]
      decide
    · exact (options.plain_of_mem_rows hrow hs c hc).1
  have hcomma : ∀ s ∈ row, ',' ∉ s := fun s hs hmem => (options.plain_of_mem_rows hrow hs _ hmem).2 rfl
  rw [expand_of_firstGroup? (firstGroup?_append hu hplain after)]
  simp only [Text.join, List.splitOn_intercalate ',' hcomma (options.row_ne_nil hrow),
    List.append_assoc]

mutual

/-- A template is expanded in its place, whatever stands around it, if there is no group in front. -/
theorem Template.expand_append {nested : Bool} (t : Template nested) {u : Text}
    (hu : firstGroup? u = none) (v : Text) :
    expand (u ++ (t.text ++ v)) = t.expansions.flatMap fun s => expand (u ++ (s ++ v)) := by
  match t with
  | .nil => exact (List.flatMap_singleton ..).symm
  | .literal c plain free rest =>
    have hfront : firstGroup? (u ++ [c]) = none := firstGroup?_append_plain hu (by simpa using plain)
    calc expand (u ++ (c :: rest.text ++ v))
        = expand (u ++ [c] ++ (rest.text ++ v)) := by simp
      _ = rest.expansions.flatMap fun s => expand (u ++ [c] ++ (s ++ v)) := rest.expand_append hfront v
      _ = (rest.expansions.map (c :: ·)).flatMap fun s => expand (u ++ (s ++ v)) := by
        simp [List.flatMap_map]
  | .choice options rest =>
    -- Behind the brace that opens stands no group yet, so the options are expanded first, and each row of
    -- them is then the first group.
    have hside : ∀ row ∈ options.rows,
        expand (u ++ ['{'] ++ (Text.join [','] row ++ '}' :: (rest.text ++ v))) =
          row.flatMap fun s => rest.expansions.flatMap fun s' => expand (u ++ (s ++ s' ++ v)) := by
      intro row hrow
      have hgroup := expand_row hrow hu (rest.text ++ v)
      rw [List.append_assoc, List.singleton_append, hgroup]
      refine List.flatMap_congr fun s hs => ?_
      have hs' : firstGroup? (u ++ s) = none :=
        firstGroup?_append_plain hu fun c hc => (options.plain_of_mem_rows hrow hs c hc).1
      rw [← List.append_assoc, rest.expand_append hs' v]
      simp only [List.append_assoc]
    calc expand (u ++ ('{' :: (options.text ++ '}' :: rest.text) ++ v))
        = expand (u ++ ['{'] ++ (options.text ++ '}' :: (rest.text ++ v))) := by simp
      _ = options.rows.flatMap fun row =>
            expand (u ++ ['{'] ++ (Text.join [','] row ++ '}' :: (rest.text ++ v))) :=
        options.expand_append (firstGroup?_append_open hu) _
      _ = options.rows.flatMap fun row =>
            row.flatMap fun s => rest.expansions.flatMap fun s' => expand (u ++ (s ++ s' ++ v)) :=
        List.flatMap_congr hside
      _ = (Template.choice options rest : Template nested).expansions.flatMap
            fun s => expand (u ++ (s ++ v)) := by
        simp only [Template.expansions, List.flatMap_assoc, List.flatMap_map]

theorem Options.expand_append (options : Options) {u : Text} (hu : firstGroup? u = none) (v : Text) :
    expand (u ++ (options.text ++ v)) =
      options.rows.flatMap fun row => expand (u ++ (Text.join [','] row ++ v)) := by
  match options with
  | .last option =>
    rw [Options.text, Options.rows, List.flatMap_map, option.expand_append hu v]
    simp only [Text.join, List.intercalate_singleton]
  | .more option rest =>
    -- What the first option comes to has no brace, so there is still no group in front of the others.
    have hside : ∀ s ∈ option.expansions, expand (u ++ (s ++ ',' :: (rest.text ++ v))) =
        rest.rows.flatMap fun row => expand (u ++ (s ++ ',' :: (Text.join [','] row ++ v))) := by
      intro s hs
      have hfront : firstGroup? (u ++ (s ++ [','])) = none := by
        refine firstGroup?_append_plain hu fun c hc => ?_
        rcases List.mem_append.1 hc with hc | hc
        · exact (option.plain_of_mem_expansions hs c hc).1
        · rw [List.mem_singleton.1 hc]
          decide
      have h := rest.expand_append hfront v
      simpa only [List.append_assoc, List.singleton_append] using h
    calc expand (u ++ (option.text ++ ',' :: rest.text ++ v))
        = expand (u ++ (option.text ++ ',' :: (rest.text ++ v))) := by simp
      _ = option.expansions.flatMap fun s => expand (u ++ (s ++ ',' :: (rest.text ++ v))) :=
        option.expand_append hu _
      _ = option.expansions.flatMap fun s =>
            rest.rows.flatMap fun row => expand (u ++ (s ++ ',' :: (Text.join [','] row ++ v))) :=
        List.flatMap_congr hside
      _ = (Options.more option rest).rows.flatMap
            fun row => expand (u ++ (Text.join [','] row ++ v)) := by
        simp only [Options.rows, List.flatMap_assoc, List.flatMap_map]
        refine List.flatMap_congr fun s _ => List.flatMap_congr fun row hrow => ?_
        rw [Text.join, Text.join, List.intercalate_cons_of_ne_nil (rest.row_ne_nil hrow)]
        simp only [List.append_assoc, List.cons_append, List.nil_append]

end

theorem Template.expand_text {nested : Bool} (t : Template nested) : expand t.text = t.expansions := by
  have h := t.expand_append (u := []) rfl []
  have hplain : ∀ s ∈ t.expansions, expand s = [s] := fun s hs =>
    expand_of_firstGroup?_eq_none
      (firstGroup?_append_plain (u := []) rfl fun c hc => (t.plain_of_mem_expansions hs c hc).1)
  simp only [List.nil_append, List.append_nil] at h
  rw [h, List.flatMap_congr hplain, List.flatMap_singleton']

/-! ## The choices of a tree -/

mutual

theorem Template.expansions_ne_nil {nested : Bool} (t : Template nested) : t.expansions ≠ [] := by
  match t with
  | .nil => exact List.cons_ne_nil _ _
  | .literal c plain free rest => exact fun h => rest.expansions_ne_nil (List.map_eq_nil_iff.1 h)
  | .choice options rest =>
    obtain ⟨row, hrow⟩ := List.exists_mem_of_ne_nil _ options.rows_ne_nil
    obtain ⟨a, ha⟩ := List.exists_mem_of_ne_nil _ (options.row_ne_nil hrow)
    obtain ⟨b, hb⟩ := List.exists_mem_of_ne_nil _ rest.expansions_ne_nil
    exact List.ne_nil_of_mem (List.mem_flatMap.2
      ⟨row, hrow, List.mem_flatMap.2 ⟨a, ha, List.mem_map_of_mem hb⟩⟩)

theorem Options.rows_ne_nil (options : Options) : options.rows ≠ [] := by
  match options with
  | .last option => exact fun h => option.expansions_ne_nil (List.map_eq_nil_iff.1 h)
  | .more option rest =>
    obtain ⟨a, ha⟩ := List.exists_mem_of_ne_nil _ option.expansions_ne_nil
    obtain ⟨row, hrow⟩ := List.exists_mem_of_ne_nil _ rest.rows_ne_nil
    exact List.ne_nil_of_mem (List.mem_flatMap.2 ⟨a, ha, List.mem_map_of_mem hrow⟩)

end

theorem Template.yields_choice_iff {nested : Bool} {options : Options} {rest : Template nested}
    {s : Text} : (Template.choice options rest).Yields s ↔
      ∃ option ∈ options.toList, ∃ a b, option.Yields a ∧ rest.Yields b ∧ s = a ++ b := by
  constructor
  · intro h
    cases h with
    | choice hoption ha hb => exact ⟨_, hoption, _, _, ha, hb, rfl⟩
  · rintro ⟨option, hoption, a, b, ha, hb, rfl⟩
    exact .choice hoption ha hb

mutual

/-- The expansions of a template are the texts that it yields, however often each of them comes. -/
theorem Template.mem_expansions_iff {nested : Bool} (t : Template nested) {s : Text} :
    s ∈ t.expansions ↔ t.Yields s := by
  match t with
  | .nil =>
    rw [Template.expansions, List.mem_singleton]
    constructor
    · rintro rfl
      exact .nil
    · intro h
      cases h
      rfl
  | .literal c plain free rest =>
    rw [Template.expansions, List.mem_map]
    constructor
    · rintro ⟨s, hs, rfl⟩
      exact .literal (rest.mem_expansions_iff.1 hs)
    · intro h
      cases h with
      | literal h => exact ⟨_, rest.mem_expansions_iff.2 h, rfl⟩
  | .choice options rest =>
    simp only [Template.expansions, List.mem_flatMap, List.mem_map, Template.yields_choice_iff]
    constructor
    · rintro ⟨row, hrow, a, ha, b, hb, rfl⟩
      obtain ⟨option, hoption, hyields⟩ := options.exists_mem_row_iff.1 ⟨row, hrow, ha⟩
      exact ⟨option, hoption, a, b, hyields, rest.mem_expansions_iff.1 hb, rfl⟩
    · rintro ⟨option, hoption, a, b, ha, hb, rfl⟩
      obtain ⟨row, hrow, ha⟩ := options.exists_mem_row_iff.2 ⟨option, hoption, ha⟩
      exact ⟨row, hrow, a, ha, b, rest.mem_expansions_iff.2 hb, rfl⟩

theorem Options.exists_mem_row_iff (options : Options) {s : Text} :
    (∃ row ∈ options.rows, s ∈ row) ↔ ∃ option ∈ options.toList, option.Yields s := by
  match options with
  | .last option =>
    constructor
    · rintro ⟨row, hrow, hs⟩
      obtain ⟨a, ha, rfl⟩ := List.mem_map.1 hrow
      rw [List.mem_singleton.1 hs]
      exact ⟨option, List.mem_singleton_self option, option.mem_expansions_iff.1 ha⟩
    · rintro ⟨_, hoption, hs⟩
      rw [List.mem_singleton.1 hoption] at hs
      exact ⟨[s], List.mem_map_of_mem (option.mem_expansions_iff.2 hs), List.mem_singleton_self s⟩
  | .more option rest =>
    rw [Options.toList, List.exists_mem_cons_iff, ← rest.exists_mem_row_iff,
      ← option.mem_expansions_iff]
    simp only [Options.rows, List.mem_flatMap, List.mem_map]
    constructor
    · rintro ⟨_, ⟨a, ha, row, hrow, rfl⟩, hs⟩
      rcases List.mem_cons.1 hs with rfl | hs
      · exact Or.inl ha
      · exact Or.inr ⟨row, hrow, hs⟩
    · -- A text of one option is in a row only if the options beside it come to something.
      rintro (hs | ⟨row, hrow, hs⟩)
      · obtain ⟨row, hrow⟩ := List.exists_mem_of_ne_nil _ rest.rows_ne_nil
        exact ⟨_, ⟨s, hs, row, hrow, rfl⟩, List.mem_cons_self⟩
      · obtain ⟨a, ha⟩ := List.exists_mem_of_ne_nil _ option.expansions_ne_nil
        exact ⟨_, ⟨a, ha, row, hrow, rfl⟩, List.mem_cons_of_mem a hs⟩

end

/-! ## Trees without groups in options -/

/-- No option of a group has a group in it. -/
def Template.Flat : {nested : Bool} → Template nested → Prop
  | _, .nil => True
  | _, .literal _ _ _ rest => rest.Flat
  | _, .choice options rest => options.size = 0 ∧ rest.Flat

/-- The text that comes of the options at these places, one place for each group from left to right. -/
inductive Template.Picks : {nested : Bool} → Template nested → List Nat → Text → Prop where
  | nil {nested : Bool} : Picks (.nil : Template nested) [] []
  | literal {nested : Bool} {c : Char} {plain : isBrace c = false} {free : nested = true → c ≠ ','}
      {rest : Template nested} {places : List Nat} {s : Text} : Picks rest places s →
      Picks (.literal c plain free rest) places (c :: s)
  | choice {nested : Bool} {options : Options} {rest : Template nested} {option : Template true}
      {k : Nat} {places : List Nat} {s : Text} : options.toList[k]? = some option →
      Picks rest places s → Picks (.choice options rest) (k :: places) (option.text ++ s)

/-- The picks of a template, the first group changing last. -/
def Template.picks : {nested : Bool} → Template nested → List (List Nat)
  | _, .nil => [[]]
  | _, .literal _ _ _ rest => rest.picks
  | _, .choice options rest =>
    (List.range options.toList.length).flatMap fun k => rest.picks.map (k :: ·)

theorem Template.expansions_of_size {nested : Bool} (t : Template nested) (h : t.size = 0) :
    t.expansions = [t.text] := by
  match t with
  | .nil => rfl
  | .literal c plain free rest => rw [Template.expansions, rest.expansions_of_size h]; rfl
  | .choice options rest =>
    rw [Template.size] at h
    omega

theorem Options.rows_of_size (options : Options) (h : options.size = 0) :
    options.rows = [options.toList.map Template.text] := by
  match options with
  | .last option => rw [Options.rows, option.expansions_of_size h]; rfl
  | .more option rest =>
    obtain ⟨hoption, hrest⟩ := Nat.add_eq_zero_iff.1 h
    rw [Options.rows, option.expansions_of_size hoption, rest.rows_of_size hrest]
    rfl

theorem Template.mem_picks_iff {nested : Bool} (t : Template nested) {places : List Nat} :
    places ∈ t.picks ↔ ∃ s, t.Picks places s := by
  match t with
  | .nil =>
    rw [Template.picks, List.mem_singleton]
    constructor
    · rintro rfl
      exact ⟨[], .nil⟩
    · rintro ⟨s, h⟩
      cases h
      rfl
  | .literal c plain free rest =>
    rw [Template.picks, rest.mem_picks_iff]
    constructor
    · rintro ⟨s, h⟩
      exact ⟨c :: s, .literal h⟩
    · rintro ⟨s, h⟩
      cases h with
      | literal h => exact ⟨_, h⟩
  | .choice options rest =>
    simp only [Template.picks, List.mem_flatMap, List.mem_range, List.mem_map, rest.mem_picks_iff]
    constructor
    · rintro ⟨k, hk, places, ⟨s, h⟩, rfl⟩
      exact ⟨_, .choice (List.getElem?_eq_getElem hk) h⟩
    · rintro ⟨s, h⟩
      cases h with
      | choice hoption h =>
        exact ⟨_, (List.getElem?_eq_some_iff.1 hoption).1, _, ⟨_, h⟩, rfl⟩

theorem Template.pairwise_picks {nested : Bool} (t : Template nested) :
    t.picks.Pairwise (List.Lex (· < ·)) := by
  match t with
  | .nil => exact List.pairwise_singleton _ _
  | .literal c plain free rest => exact rest.pairwise_picks
  | .choice options rest =>
    rw [Template.picks, List.pairwise_flatMap]
    constructor
    · intro k _
      exact rest.pairwise_picks.map _ fun _ _ h => .cons h
    · refine List.pairwise_lt_range.imp fun hlt places hplaces places' hplaces' => ?_
      obtain ⟨_, -, rfl⟩ := List.mem_map.1 hplaces
      obtain ⟨_, -, rfl⟩ := List.mem_map.1 hplaces'
      exact .rel hlt

theorem Template.forall₂_picks {nested : Bool} (t : Template nested) (h : t.Flat) :
    List.Forall₂ t.Picks t.picks t.expansions := by
  match t with
  | .nil => exact .cons .nil .nil
  | .literal c plain free rest =>
    rw [Template.picks, Template.expansions, ← List.map_id rest.picks]
    exact List.rel_map (fun _ _ hpicks => .literal hpicks) (rest.forall₂_picks h)
  | .choice options rest =>
    have hplaces : List.Forall₂ (fun k option => options.toList[k]? = some option)
        (List.range options.toList.length) options.toList := by
      refine List.forall₂_iff_get.2 ⟨List.length_range, fun k _ hk => ?_⟩
      rw [List.get_eq_getElem, List.get_eq_getElem, List.getElem_range, List.getElem?_eq_getElem hk]
    have hexpansions : (Template.choice options rest : Template nested).expansions =
        options.toList.flatMap fun option => rest.expansions.map (option.text ++ ·) := by
      rw [Template.expansions, options.rows_of_size h.1, List.flatMap_singleton, List.flatMap_map]
    rw [Template.picks, hexpansions]
    refine List.rel_flatMap hplaces fun k option hoption => ?_
    exact List.rel_map (fun _ _ hpicks => .choice hoption hpicks) (rest.forall₂_picks h.2)

/-- A row of groups with one option each. -/
def Template.row : Nat → Template false
  | 0 => .nil
  | n + 1 => .choice (.last (.literal 'a' (by decide) (by decide) .nil)) (row n)

theorem Template.text_row (n : Nat) :
    (row n).text = (List.replicate n "\x7ba\x7d".toList).flatten := by
  induction n with
  | zero => rfl
  | succ n ih =>
    rw [row, List.replicate_succ, List.flatten_cons, ← ih]
    rfl

theorem Template.yields_row (n : Nat) : (row n).Yields (List.replicate n 'a') := by
  induction n with
  | zero => exact .nil
  | succ n ih => exact .choice (List.mem_singleton_self _) (.literal .nil) ih

end Brace

namespace Glob

theorem exists_expansion_iff {calls : Option Nat} {pattern : Text} :
    (∃ found, expansion calls pattern = .ok found) ↔ ∀ n ∈ calls, Brace.groups pattern < n := by
  simp only [expansion_eq_ok_iff, exists_and_left, exists_eq, and_true]

/-- Expanding ends on every text, after as many steps as it has groups, and what it comes to has no group
left. Each step is one more nested call, so a list is returned exactly if the calls are not limited to as
many as there are groups, or to fewer. The alternatives of a template are the texts that come of choosing
one option at every group. If no option has a group in it, they are listed by the places of the chosen
options, the first group counting most. -/
theorem expansion_is_choice :
    (∀ (p : Text) n q, Brace.Rewrites n p q → n ≤ Brace.groups p) ∧
    (∀ (calls : Option Nat) (p : Text), (∃ found, expansion calls p = .ok found) ↔
      ∀ limit ∈ calls, ∀ n q, Brace.Rewrites n p q → n < limit) ∧
    (∀ (calls : Option Nat) (p : Text) (found : List Text), expansion calls p = .ok found →
      (∀ q, q ∈ found ↔ Brace.Rewrites (Brace.groups p) p q) ∧
      ∀ q ∈ found, ∀ before body after : Text, (∀ c ∈ body, Brace.isBrace c = false) →
        q ≠ before ++ '{' :: (body ++ '}' :: after)) ∧
    (∀ (calls : Option Nat) (t : Brace.Template false),
      (∃ found, expansion calls t.text = .ok found) ↔ ∀ limit ∈ calls, t.size < limit) ∧
    ∀ (calls : Option Nat) (t : Brace.Template false) (found : List Text),
      expansion calls t.text = .ok found →
      (∀ s, s ∈ found ↔ t.Yields s) ∧
      (t.Flat → ∃ picks : List (List Nat), picks.Pairwise (List.Lex (· < ·)) ∧
        (∀ places, places ∈ picks ↔ ∃ s, t.Picks places s) ∧ List.Forall₂ t.Picks picks found) := by
  have hbound : ∀ (p : Text) n q, Brace.Rewrites n p q → n ≤ Brace.groups p :=
    fun p n q h => h.groups_eq ▸ Nat.le_add_right n _
  refine ⟨hbound, ?_, ?_, ?_, ?_⟩
  · intro calls p
    rw [exists_expansion_iff]
    constructor
    · exact fun hfew limit hlimit n q h => Nat.lt_of_le_of_lt (hbound p n q h) (hfew limit hlimit)
    · intro h limit hlimit
      obtain ⟨q, hq⟩ := List.exists_mem_of_ne_nil _ (Brace.expand_ne_nil p)
      exact h limit hlimit _ q (Brace.mem_expand_iff_rewrites.1 hq)
  · rintro calls p found hfound
    obtain ⟨-, rfl⟩ := expansion_eq_ok_iff.1 hfound
    exact ⟨fun q => Brace.mem_expand_iff_rewrites, fun q hq =>
      Brace.firstGroup?_eq_none_iff_forall.1 (Brace.firstGroup?_eq_none_of_mem_expand hq)⟩
  · intro calls t
    rw [exists_expansion_iff, t.groups_text]
  · rintro calls t found hfound
    obtain ⟨-, rfl⟩ := expansion_eq_ok_iff.1 hfound
    rw [t.expand_text]
    exact ⟨fun s => t.mem_expansions_iff,
      fun hflat => ⟨t.picks, t.pairwise_picks, fun places => t.mem_picks_iff, t.forall₂_picks hflat⟩⟩

/-- In the first pattern the inner group is expanded while the option beside it stands in the same braces,
so that option is found twice. The second one has no group in an option, and one of its options is empty.
Three nested calls do for both, since each has two groups. -/
theorem expansion_is_choice_of_two_patterns :
    let b : Brace.Template true := .literal 'b' (by decide) (by decide) .nil
    let c : Brace.Template true := .literal 'c' (by decide) (by decide) .nil
    let nested : Brace.Template false :=
      .choice (.more (.literal 'a' (by decide) (by decide) (.choice (.more b (.last c)) .nil)) (.last c))
        (.literal ',' (by decide) (by decide) .nil)
    let flat : Brace.Template false := .choice (.more b (.last c)) (.choice (.more c (.last .nil)) .nil)
    nested.text = "\x7ba\x7bb,c\x7d,c\x7d,".toList ∧
      expansion (some 3) nested.text =
        .ok ["ab,".toList, "c,".toList, "ac,".toList, "c,".toList] ∧
      (∀ s, s ∈ ["ab,".toList, "c,".toList, "ac,".toList, "c,".toList] ↔ nested.Yields s) ∧
      flat.text = "\x7bb,c\x7d\x7bc,\x7d".toList ∧
      expansion (some 3) flat.text = .ok ["bc".toList, "b".toList, "cc".toList, "c".toList] ∧
      flat.Flat ∧
      ∃ picks : List (List Nat), picks.Pairwise (List.Lex (· < ·)) ∧
        List.Forall₂ flat.Picks picks ["bc".toList, "b".toList, "cc".toList, "c".toList] := by
  intro b c nested flat
  have hnested : expansion (some 3) nested.text =
      .ok ["ab,".toList, "c,".toList, "ac,".toList, "c,".toList] := rfl
  have hflat : expansion (some 3) flat.text =
      .ok ["bc".toList, "b".toList, "cc".toList, "c".toList] := rfl
  have hgroups : flat.Flat := ⟨rfl, rfl, trivial⟩
  obtain ⟨-, -, -, -, hchoice⟩ := expansion_is_choice
  obtain ⟨picks, hsorted, -, hpicks⟩ := (hchoice (some 3) flat _ hflat).2 hgroups
  exact ⟨rfl, hnested, (hchoice (some 3) nested _ hnested).1, rfl, hflat, hgroups, picks, hsorted,
    hpicks⟩

/-- A pattern of many groups stands for one text, and no list is returned where only a thousand nested
calls can be made. -/
theorem expansion_stops_at_many_groups :
    let t := Brace.Template.row 1100
    t.text = (List.replicate 1100 "\x7ba\x7d".toList).flatten ∧ t.Yields (List.replicate 1100 'a') ∧
      ∀ calls ≤ 1000, expansion (some calls) t.text = .error .tooManyGroups ∧
        ¬ ∃ found, expansion (some calls) t.text = .ok found ∧ ∀ s, s ∈ found ↔ t.Yields s := by
  intro t
  have htext : t.text = _ := Brace.Template.text_row 1100
  refine ⟨htext, Brace.Template.yields_row 1100, fun calls hcalls => ?_⟩
  have hgroups : calls ≤ Brace.groups t.text := by
    rw [htext, Brace.groups_replicate]
    omega
  have hrefused : expansion (some calls) t.text = .error .tooManyGroups :=
    expansion_eq_error_iff.2 ⟨calls, rfl, hgroups⟩
  refine ⟨hrefused, ?_⟩
  rintro ⟨found, hfound, -⟩
  rw [hrefused] at hfound
  cases hfound

end Glob

end PropAccord
