import PropAccord.Component.Definition
import PropAccord.Component.Tag
import PropAccord.Edit.Plan
import PropAccord.Settings.Basic

/-!
# The edits of a synchronisation

Tags are completed by an attribute with a placeholder for each prop they lack, put in before their
end mark. Parameter lists are widened by the props that only usages have: either written anew from
their names, or kept as they are with the new names behind.
-/

namespace PropAccord.Sync

set_option autoImplicit false

def attributeText (placeholder name : Text) : Text := ' ' :: (name ++ '=' :: placeholder)

def tagInsertion? (placeholder : Text) (props : List Text) (tag : Tag) : Option Insertion :=
  let missing := tag.missing props
  if missing.isEmpty then none
  else some ⟨tag.insertAt, missing.flatMap (attributeText placeholder)⟩

def tagInsertions (placeholder : Text) (props : List Text) (tags : List Tag) : List Insertion :=
  tags.filterMap (tagInsertion? placeholder props)

def nameList (names : List Text) : Text := Text.join ", ".toList names

/-- A parameter list widened by the names in `added`; `merged` are all names it is to have. -/
def widen (mode : WidenMode) (raw : Text) (merged added : List Text) : Text :=
  if raw.allBlank then nameList merged
  else match mode with
    | .append =>
      let body := raw.stripEnd
      let separator := if body.getLast? = some ',' then " ".toList else ", ".toList
      body ++ separator ++ nameList added ++ raw.trailingBlanks
    | .canonical => raw.leadingBlanks ++ nameList merged ++ raw.trailingBlanks

structure Widening where
  plan : Plan
  merged : List Text
  added : List Text

def widening (mode : WidenMode) (snapshot : Snapshot) (d : Definition) (used : List Text) : Widening :=
  let merged := Props.merge d.props used
  let added := merged.filter fun p => !d.props.contains p
  if added.isEmpty then ⟨{}, d.props, []⟩
  else
    let replacement : Edit := ⟨d.start, d.stop, widen mode d.raw merged added⟩
    ⟨⟨[{ snapshot, replacements := [replacement] }]⟩, merged, added⟩

end PropAccord.Sync
