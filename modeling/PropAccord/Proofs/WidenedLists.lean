import PropAccord.Proofs.Widening

/-!
# The names of a widened list

A parameter list is widened by writing names into it, and is read again later. Names that are appended
are read back behind those that were there. A list that is written anew has the merged names again,
unless one of the old names ends in a question mark, which is dropped then.
-/

namespace PropAccord.Sync

set_option autoImplicit false

section

variable (raw : Text) {used : List Text} (hused : ∀ name ∈ used, isIdentifier name = true)
include hused

theorem namesIn_nameList_missing {b : Text} (hb : b.allBlank = true) (present : List Text) :
    Props.namesIn (b ++ nameList (Props.missing present used)) = Props.missing present used := by
  have hmissing : ∀ name ∈ Props.missing present used, isIdentifier name = true :=
    fun name hname => hused name (Props.mem_missing_iff.1 hname).1
  refine (Props.namesIn_join_eq_self_iff (fun name hname => ?_) hb).2 fun name hname => ?_
  · exact Props.bare_of_isIdentifier (hmissing name hname)
  · exact Props.getLast?_ne_of_isIdentifier (hmissing name hname)

theorem namesIn_widened_append :
    Props.namesIn (widen .append raw (Props.merge (Props.namesIn raw) used)
      (Props.missing (Props.namesIn raw) used)) =
        Props.namesIn raw ++ Props.missing (Props.namesIn raw) used := by
  by_cases hraw : raw.allBlank = true
  · rw [widen_of_allBlank _ hraw, Props.merge_eq_append, namesIn_eq_nil_of_allBlank hraw]
    exact namesIn_nameList_missing hused (b := []) rfl []
  · rw [namesIn_widen_append (Bool.eq_false_iff.2 hraw)]
    exact congrArg _ (namesIn_nameList_missing hused (b := [' ']) rfl _)

theorem namesIn_widened_canonical_iff (added : List Text) :
    Props.namesIn (widen .canonical raw (Props.merge (Props.namesIn raw) used) added) =
        Props.merge (Props.namesIn raw) used ↔
      ∀ name ∈ Props.namesIn raw, name.getLast? ≠ some '?' := by
  have hlist : ∃ b : Text, b.allBlank = true ∧
      Props.namesIn (widen .canonical raw (Props.merge (Props.namesIn raw) used) added) =
        Props.namesIn (b ++ nameList (Props.merge (Props.namesIn raw) used)) := by
    by_cases hraw : raw.allBlank = true
    · exact ⟨[], rfl, by rw [widen_of_allBlank _ hraw, List.nil_append]⟩
    · exact ⟨raw.leadingBlanks, Text.allBlank_leadingBlanks raw,
        namesIn_widen_canonical (Bool.eq_false_iff.2 hraw) _ _⟩
  obtain ⟨b, hb, hlist⟩ := hlist
  rw [hlist, nameList, Props.namesIn_join_eq_self_iff (Props.bare_of_mem_merge hused) hb]
  constructor
  · exact fun h name hname => h name (Props.mem_merge_iff.2 (Or.inl hname))
  · intro h name hname
    rcases Props.mem_merge_iff.1 hname with hname | hname
    · exact h name hname
    · exact Props.getLast?_ne_of_isIdentifier (hused name hname)

/-- Reading a widened list again gives the widened list of names. -/
theorem names_of_widened_list {old merged added : List Text} (hold : Props.namesIn raw = old)
    (hmerged : Props.merge old used = merged)
    (hadded : (merged.filter fun p => !old.contains p) = added) :
    (merged = old.eraseDups ++ added ∧ added = (used.filter (· ∉ old)).eraseDups) ∧
      Props.namesIn (widen .append raw merged added) = old ++ added ∧
      (Props.namesIn (widen .canonical raw merged added) = merged ↔
        ∀ name ∈ old, name.getLast? ≠ some '?') := by
  subst hold hmerged
  have hmissing : added = Props.missing (Props.namesIn raw) used := by
    rw [← hadded]
    exact Props.added_eq_missing _ used
  rw [hmissing]
  exact ⟨⟨Props.merge_eq_append _ used, rfl⟩, namesIn_widened_append raw hused,
    namesIn_widened_canonical_iff raw hused _⟩

end

/-- A repeated name stays in a list that is added to, and stands once in one that is written anew. -/
theorem names_of_widened_list_of_repeated :
    let raw : Text := "\n  title?: string = 'x',, size = 3 , title,\u2003".toList
    let used : List Text := ["size".toList, "kind".toList, "kind".toList]
    let old : List Text := ["title".toList, "size".toList, "title".toList]
    let merged : List Text := ["title".toList, "size".toList, "kind".toList]
    (∀ name ∈ used, isIdentifier name = true) ∧ Props.namesIn raw = old ∧
      Props.merge old used = merged ∧
      Props.namesIn (widen .append raw merged ["kind".toList]) = old ++ ["kind".toList] ∧
      Props.namesIn (widen .canonical raw merged ["kind".toList]) = merged := by
  intro raw used old merged
  have hused : ∀ name ∈ used, isIdentifier name = true := by decide
  have hold : Props.namesIn raw = old := by decide +kernel
  have hmerged : Props.merge old used = merged := by decide +kernel
  have hadded : (merged.filter fun p => !old.contains p) = ["kind".toList] := by decide +kernel
  obtain ⟨-, happend, hcanonical⟩ := names_of_widened_list raw hused hold hmerged hadded
  exact ⟨hused, hold, hmerged, happend, hcanonical.2 (by decide)⟩

end PropAccord.Sync
