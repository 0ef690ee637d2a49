import PropAccord.Editor.Basic
import PropAccord.Proofs.CodeUnits
import PropAccord.Proofs.Lists
import PropAccord.Proofs.Names
import PropAccord.Proofs.PropLists
import PropAccord.Proofs.Utf8

/-!
# URIs of files

The URI of a path is made of letters, digits and a few marks, whatever characters the path has. None of
them ends a part of a URI, so all of the path stands in the path part and is read back from there.
-/

namespace PropAccord

set_option autoImplicit false

/-! ## Lossy decoding -/

theorem Utf8.decodeLossyFrom_of_decodeFrom {state : State} {position : Nat} {bytes : Bytes} {t : Text}
    (h : decodeFrom state position bytes = .ok t) : decodeLossyFrom state bytes = t := by
  induction bytes generalizing state position t with
  | nil =>
    cases state with
    | none => exact Except.ok.inj h
    | some p => cases h
  | cons b rest ih =>
    rw [decodeFrom] at h
    rw [decodeLossyFrom]
    cases hstep : step state b with
    | error fault =>
      rw [hstep] at h
      cases h
    | ok result =>
      obtain ⟨next, done⟩ := result
      rw [hstep] at h
      cases done with
      | none => exact ih h
      | some c =>
        obtain ⟨u, rfl, hu⟩ := exists_of_map_eq_ok h
        exact congrArg _ (ih hu)

/-- Text that was encoded has nothing to be replaced. -/
theorem Utf8.decodeLossy_encode (t : Text) : decodeLossy (encode t) = t :=
  decodeLossyFrom_of_decodeFrom (decode_encode t)

namespace Percent

/-! ## Escapes -/

/-- The characters that an encoded text is made of. -/
def isPlain (c : Char) : Bool :=
  isNameChar c || c == '.' || c == '-' || c == '~' || c == '/' || c == '%'

theorem digit?_digit {n : Nat} (h : n < 16) : digit? (digit n) = some n := by
  have hall : ∀ n < 16, digit? (digit n) = some n := by decide
  exact hall n h

theorem isPlain_digit {n : Nat} (h : n < 16) : isPlain (digit n) = true := by
  have hall : ∀ n < 16, isPlain (digit n) = true := by decide
  exact hall n h

theorem byte?_digits (b : UInt8) :
    byte? (digit (b.toNat / 16)) (digit (b.toNat % 16)) = some b := by
  have hb := b.toNat_lt
  rw [byte?, digit?_digit (by omega), digit?_digit (by omega)]
  have hn : 16 * (b.toNat / 16) + b.toNat % 16 = b.toNat := Nat.div_add_mod b.toNat 16
  change some (UInt8.ofNat _) = _
  rw [hn, UInt8.ofNat_toNat]

theorem bytes_cons {c : Char} (hc : c ≠ '%') (rest : Text) :
    bytes (c :: rest) = UInt8.ofNat c.toNat :: bytes rest := by
  rw [bytes]
  rintro high low rest rfl
  exact absurd rfl hc

theorem bytes_escape {high low : Char} {b : UInt8} (h : byte? high low = some b) (rest : Text) :
    bytes ('%' :: high :: low :: rest) = b :: bytes rest := by
  rw [bytes, h]

theorem isPlain_of_isSafe {b : UInt8} (h : isSafe b = true) :
    isPlain (Char.ofNat b.toNat) = true := by
  rw [isSafe, Bool.and_eq_true] at h
  exact Bool.or_eq_true_iff.2 (Or.inl h.2)

theorem ne_percent_of_isSafe {b : UInt8} (h : isSafe b = true) : Char.ofNat b.toNat ≠ '%' := by
  rw [isSafe, Bool.and_eq_true] at h
  intro heq
  rw [heq] at h
  exact absurd h.2 (by decide)

theorem toNat_ofNat_of_isSafe {b : UInt8} (h : isSafe b = true) :
    UInt8.ofNat (Char.ofNat b.toNat).toNat = b := by
  rw [isSafe, Bool.and_eq_true, decide_eq_true_iff, UInt8.lt_iff_toNat_lt] at h
  have hvalid : b.toNat.isValidChar := Or.inl (Nat.lt_trans h.1 (by decide))
  have hcode : (Char.ofNat b.toNat).toNat = b.toNat := by
    rw [Char.ofNat, dif_pos hvalid]
    rfl
  rw [hcode, UInt8.ofNat_toNat]

theorem bytes_encodeByte (b : UInt8) (rest : Text) :
    bytes (encodeByte b ++ rest) = b :: bytes rest := by
  rw [encodeByte]
  split
  · rename_i h
    rw [List.singleton_append, bytes_cons (ne_percent_of_isSafe h), toNat_ofNat_of_isSafe h]
  · exact bytes_escape (byte?_digits b) rest

theorem bytes_encode (t : Text) : bytes (encode t) = Utf8.encode t := by
  rw [encode]
  induction Utf8.encode t with
  | nil => rw [List.flatMap_nil, bytes]
  | cons b rest ih => rw [List.flatMap_cons, bytes_encodeByte, ih]

theorem isPlain_of_mem_encodeByte {b : UInt8} {c : Char} (h : c ∈ encodeByte b) :
    isPlain c = true := by
  have hb := b.toNat_lt
  rw [encodeByte] at h
  split at h
  · rename_i hsafe
    rw [List.mem_singleton.1 h]
    exact isPlain_of_isSafe hsafe
  · simp only [List.mem_cons, List.not_mem_nil, or_false] at h
    rcases h with rfl | rfl | rfl
    · decide
    · exact isPlain_digit (by omega)
    · exact isPlain_digit (by omega)

theorem isPlain_of_mem_encode {t : Text} : ∀ c ∈ encode t, isPlain c = true := by
  intro c hc
  obtain ⟨b, -, hc⟩ := List.mem_flatMap.1 hc
  exact isPlain_of_mem_encodeByte hc

theorem toNat_of_isPlain {c : Char} (h : isPlain c = true) : 0x20 < c.toNat ∧ c.toNat < 0x80 := by
  simp only [isPlain, Bool.or_eq_true, beq_iff_eq] at h
  rcases h with ((((h | rfl) | rfl) | rfl) | rfl) | rfl
  · have := isNameChar_iff.1 h
    omega
  all_goals decide

theorem decodeFrom_of_isPlain {t : Text} (h : ∀ c ∈ t, isPlain c = true) (read : Text) :
    decodeFrom read t = Utf8.decodeLossy (bytes (read.reverse ++ t)) := by
  induction t generalizing read with
  | nil => rw [decodeFrom, List.append_nil]
  | cons c t ih =>
    obtain ⟨hc, ht⟩ := List.forall_mem_cons.1 h
    rw [decodeFrom, if_pos (toNat_of_isPlain hc).2, ih ht, List.reverse_cons, List.append_assoc]
    rfl

/-- A text is read back from its escapes. -/
theorem decode_encode (t : Text) : decode (encode t) = t := by
  rw [decode, decodeFrom_of_isPlain isPlain_of_mem_encode, List.reverse_nil, List.nil_append,
    bytes_encode, Utf8.decodeLossy_encode]

theorem encode_slash (t : Text) : encode ('/' :: t) = '/' :: encode t := rfl

end Percent

namespace Path

/-! ## Paths that were read -/

/-- No segment is empty, a single dot or in fact several segments. -/
structure Normal (p : Path) : Prop where
  nonempty : [] ∉ p.segments
  noDot : ['.'] ∉ p.segments
  noSlash : ∀ segment ∈ p.segments, '/' ∉ segment

theorem normal_ofText (t : Text) : (ofText t).Normal := by
  have hfilter : ∀ segment ∈ segmentsOf t, segment ∈ t.splitOn '/' ∧ segment ≠ [] ∧ segment ≠ ['.'] := by
    intro segment hsegment
    obtain ⟨hmem, hkept⟩ := List.mem_filter.1 hsegment
    exact ⟨hmem, of_decide_eq_true hkept⟩
  exact ⟨fun h => (hfilter _ h).2.1 rfl, fun h => (hfilter _ h).2.2 rfl,
    fun segment h => Text.not_mem_of_mem_splitOn (hfilter segment h).1⟩

theorem segmentsOf_slash (t : Text) : segmentsOf ('/' :: t) = segmentsOf t := by
  have hsplit : ('/' :: t).splitOn '/' = [] :: t.splitOn '/' :=
    List.splitOn_append_cons_self_of_not_mem List.not_mem_nil t
  rw [segmentsOf, hsplit, List.filter_cons_of_neg (by decide), segmentsOf]

theorem segmentsOf_join {p : Path} (h : p.Normal) :
    segmentsOf (Text.join ['/'] p.segments) = p.segments := by
  by_cases hempty : p.segments = []
  · rw [hempty]
    rfl
  · rw [segmentsOf, Text.join, List.splitOn_intercalate '/' h.noSlash hempty, List.filter_eq_self]
    intro segment hsegment
    refine decide_eq_true ⟨?_, ?_⟩
    · rintro rfl
      exact h.nonempty hsegment
    · rintro rfl
      exact h.noDot hsegment

theorem takeWhile_slash_join {p : Path} (h : p.Normal) :
    (Text.join ['/'] p.segments).takeWhile (· == '/') = [] := by
  have hstop : ∀ segment rest : Text, segment ∈ p.segments →
      (segment ++ rest).takeWhile (· == '/') = [] := by
    intro segment rest hsegment
    cases segment with
    | nil => exact absurd hsegment h.nonempty
    | cons c segment =>
      refine List.takeWhile_cons_of_neg ?_
      rw [beq_iff_eq]
      rintro rfl
      exact h.noSlash _ hsegment List.mem_cons_self
  cases hsegments : p.segments with
  | nil => rfl
  | cons first rest =>
    have hfirst : first ∈ p.segments := hsegments ▸ List.mem_cons_self
    cases rest with
    | nil =>
      rw [Text.join, List.intercalate_singleton, ← List.append_nil first]
      exact hstop first [] hfirst
    | cons second rest =>
      rw [Text.join, List.intercalate_cons_cons, List.append_assoc]
      exact hstop first _ hfirst

/-- A path is read back from its written form. -/
theorem ofText_text {p : Path} (h : p.Normal) : ofText p.text = p := by
  have hjoin := segmentsOf_join h
  have hslashes := takeWhile_slash_join h
  obtain ⟨anchor, segments⟩ := p
  simp only at hjoin hslashes
  cases anchor with
  | relative =>
    rw [text]
    split
    · rename_i hempty
      obtain ⟨-, rfl⟩ := hempty
      rfl
    · rw [Anchor.text, List.nil_append, ofText, hjoin, hslashes]
      rfl
  | root =>
    rw [text, if_neg nofun, Anchor.text, List.singleton_append, ofText, segmentsOf_slash, hjoin,
      List.takeWhile_cons_of_pos rfl, hslashes]
    rfl
  | doubleRoot =>
    rw [text, if_neg nofun, Anchor.text, List.cons_append, List.singleton_append, ofText,
      segmentsOf_slash, segmentsOf_slash, hjoin, List.takeWhile_cons_of_pos rfl,
      List.takeWhile_cons_of_pos rfl, hslashes]
    rfl

theorem exists_text_of_isAbsolute {p : Path} (h : p.isAbsolute = true) : ∃ rest, p.text = '/' :: rest := by
  obtain ⟨anchor, segments⟩ := p
  cases anchor with
  | relative => cases h
  | root => exact ⟨_, rfl⟩
  | doubleRoot => exact ⟨_, rfl⟩

end Path

namespace Uri

/-! ## Reading a URI -/

theorem clean_of_isPlain {t : Text} (h : ∀ c ∈ t, Percent.isPlain c = true) :
    clean ("file://".toList ++ t) = "file://".toList ++ t := by
  have hblank : ∀ c, Percent.isPlain c = true → c ≠ '\t' ∧ c ≠ '\r' ∧ c ≠ '\n' := by
    intro c hc
    have := (Percent.toNat_of_isPlain hc).1
    refine ⟨?_, ?_, ?_⟩ <;> rintro rfl <;> exact absurd this (by decide)
  have hmarks : ("file://".toList.all fun c => c ≠ '\t' ∧ c ≠ '\r' ∧ c ≠ '\n') = true := by decide
  rw [clean]
  have hdrop : ("file://".toList ++ t).dropWhile (fun c => c.toNat ≤ 0x20) = "file://".toList ++ t := rfl
  rw [hdrop, List.filter_eq_self]
  intro c hc
  rcases List.mem_append.1 hc with hc | hc
  · exact List.all_eq_true.1 hmarks c hc
  · exact decide_eq_true (hblank c (h c hc))

theorem splitScheme_file (rest : Text) :
    splitScheme ("file:".toList ++ rest) = ("file".toList, rest) := rfl

theorem splitAuthority_slash (rest : Text) :
    splitAuthority ("//".toList ++ '/' :: rest) = ([], '/' :: rest) := rfl

theorem toPath_of_isPlain {rest : Text} (h : ∀ c ∈ '/' :: rest, Percent.isPlain c = true) :
    toPath ("file://".toList ++ '/' :: rest) = .ok (Path.ofText (Percent.decode ('/' :: rest))) := by
  have hmark : ∀ mark, Percent.isPlain mark = false → mark ∉ '/' :: rest := by
    intro mark hmark hmem
    rw [h mark hmem] at hmark
    cases hmark
  have hscheme : splitScheme ("file://".toList ++ '/' :: rest) =
      ("file".toList, "//".toList ++ '/' :: rest) := splitScheme_file _
  have hauthority : checkAuthority [] = .ok () := rfl
  rw [toPath, clean_of_isPlain h, hscheme]
  simp only [splitAuthority_slash, hauthority, Text.before_of_not_mem (hmark '#' (by decide)),
    Text.before_of_not_mem (hmark '?' (by decide)), if_true]
  rfl

/-- The URI of a path names that path. -/
theorem toPath_of_ofPath? {p : Path} (hp : p.Normal) {uri : Text} (h : ofPath? p = some uri) :
    toPath uri = .ok p := by
  rw [ofPath?] at h
  split at h
  · rename_i habsolute
    obtain ⟨rest, htext⟩ := Path.exists_text_of_isAbsolute habsolute
    have hplain := Percent.isPlain_of_mem_encode (t := p.text)
    rw [htext, Percent.encode_slash] at hplain
    obtain rfl := Option.some.inj h
    rw [htext, Percent.encode_slash, toPath_of_isPlain hplain, ← Percent.encode_slash, ← htext,
      Percent.decode_encode, Path.ofText_text hp]
  · cases h

end Uri

/-! ## The documents of a plan -/

theorem Editor.ofPath?_of_placeFile {f : FilePlan} {d : DocumentEdits} (h : placeFile f = .ok d) :
    Uri.ofPath? f.path = some d.uri := by
  rw [placeFile] at h
  split at h
  · cases h
  · cases h
  · rename_i huri
    cases h
    exact huri

/-- The URI of an absolute path is plain behind its scheme and names this path and no other. So do the
URIs under which the edits of a plan are sent. -/
theorem Uri.names_one_path :
    (∀ p : Path, p.Normal → p.isAbsolute = true →
      ofPath? p = some ("file://".toList ++ Percent.encode p.text) ∧
        (∀ c ∈ Percent.encode p.text, Percent.isPlain c = true) ∧
        toPath ("file://".toList ++ Percent.encode p.text) = .ok p) ∧
      (∀ (p q : Path) (uri : Text), p.Normal → q.Normal → ofPath? p = some uri →
        ofPath? q = some uri → p = q) ∧
      ∀ (plan : Plan) (documents : List DocumentEdits), (∀ f ∈ plan.files, f.path.Normal) →
        Editor.placePlan plan = .ok documents →
        List.Forall₂ (fun f d => toPath d.uri = .ok f.snapshot.path) plan.files documents := by
  refine ⟨fun p hp habsolute => ?_, fun p q uri hp hq huri huri' => ?_,
    fun plan documents hnormal hplaced => ?_⟩
  · have huri : ofPath? p = some ("file://".toList ++ Percent.encode p.text) := if_pos habsolute
    exact ⟨huri, Percent.isPlain_of_mem_encode, toPath_of_ofPath? hp huri⟩
  · have hpath := toPath_of_ofPath? hp huri
    rw [toPath_of_ofPath? hq huri'] at hpath
    exact (Except.ok.inj hpath).symm
  · refine forall₂_of_mapM_eq_ok hplaced fun f hf d hd => ?_
    exact toPath_of_ofPath? (hnormal f hf) (Editor.ofPath?_of_placeFile hd)

/-- Two slashes at the start, a percent sign, delimiters of URIs, a line feed and characters of two and
four bytes. -/
theorem Uri.names_one_path_of_delimiters :
    let p := Path.ofText "//a b/%2F?#;[é\n😀/..".toList
    let uri : Text := "file:////a%20b/%252F%3F%23%3B%5B%C3%A9%0A%F0%9F%98%80/..".toList
    let f : FilePlan := { snapshot := ⟨p, ['x'], none⟩, insertions := [⟨1, ['y']⟩] }
    (p.Normal ∧ p.isAbsolute = true ∧ ∀ g ∈ [f], g.path.Normal) ∧
      ofPath? p = some uri ∧ toPath uri = .ok p ∧
      ∃ d, Editor.placePlan ⟨[f]⟩ = .ok [d] ∧ d.uri = uri ∧ toPath d.uri = .ok f.snapshot.path := by
  intro p uri f
  have hp : p.Normal := Path.normal_ofText _
  have habsolute : p.isAbsolute = true := by decide +kernel
  have hfiles : ∀ g ∈ [f], g.path.Normal := by
    intro g hg
    rw [List.mem_singleton.1 hg]
    exact hp
  have huri : ofPath? p = some uri := by decide +kernel
  have happly := @FilePlan.apply_insertions f.snapshot f.insertions (by simp [f]) (by simp [f])
  have hplaced : Editor.placePlan ⟨[f]⟩ =
      .ok [⟨uri, p, none, f.edits.map (Edit.placedIn f.snapshot)⟩] := by
    rw [Editor.placePlan, List.mapM_cons,
      (Editor.placeFile_eq_ok_iff happly).2 ⟨uri, huri, rfl⟩]
    rfl
  obtain ⟨hpath, -, hplan⟩ := names_one_path
  obtain ⟨hencoded, -, hread⟩ := hpath p hp habsolute
  rw [← Option.some.inj (huri.symm.trans hencoded)] at hread
  cases hplan ⟨[f]⟩ _ hfiles hplaced with
  | cons hd _ => exact ⟨⟨hp, habsolute, hfiles⟩, huri, hread, _, hplaced, rfl, hd⟩

end PropAccord
