import CInterface.Proofs.Text.Tiling
import CInterface.Proofs.Token.Covering
import CInterface.Proofs.Word.Bytes
/-!
# Ranges of words

The byte ranges of the segments of a text divide it: they stand one behind the other, and none is
empty. They begin and end between characters, so that a text may be cut there, and a segment that is
cut out is read as it was read in its place.

* `tiles_segmentSpansFrom` — the ranges lie one behind the other.
* `exists_of_mem_segmentSpansFrom` — the part of a text that a range is.
* `FirstSegment.segmentSpans_eq` — a segment alone.
* `segmentSpans_partition` — the ranges of a text.
-/

namespace CInterface

open Text

theorem FirstSegment.byteLength_pos {kind : SegmentKind} {word rest : List Char}
    (h : FirstSegment kind word rest) : 0 < byteLength word := by
  obtain ⟨c, w, rfl⟩ := List.exists_cons_of_ne_nil h.ne_nil
  have hc := c.utf8Size_pos
  rw [byteLength_cons]
  omega

/-- The ranges of the segments lie one behind the other. -/
theorem tiles_segmentSpansFrom (offset : Nat) (cs : List Char) :
    Tiles offset (offset + byteLength cs)
      ((segmentSpansFrom offset (segments cs)).map (·.2)) := by
  induction cs using firstSegment_induction generalizing offset with
  | hnil =>
    rw [segments]
    exact rfl
  | hsegment kind word rest hfirst ih =>
    have hpos := hfirst.byteLength_pos
    rw [segments_append hfirst, byteLength_append, ← Nat.add_assoc]
    exact ⟨rfl, Nat.lt_add_of_pos_right hpos, ih _⟩

/-- Each range is that of a segment of the text. -/
theorem exists_of_mem_segmentSpansFrom {offset : Nat} {cs : List Char}
    {s : SegmentKind × Nat × Nat} (hs : s ∈ segmentSpansFrom offset (segments cs)) :
    ∃ pre word post, cs = pre ++ (word ++ post) ∧ FirstSegment s.1 word post ∧
      s.2 = (offset + byteLength pre, offset + byteLength pre + byteLength word) := by
  induction cs using firstSegment_induction generalizing offset with
  | hnil =>
    rw [segments] at hs
    cases hs
  | hsegment kind word rest hfirst ih =>
    rw [segments_append hfirst] at hs
    rcases List.mem_cons.1 hs with rfl | hs
    · exact ⟨[], word, rest, rfl, hfirst, rfl⟩
    · obtain ⟨pre, word', post, rfl, hfirst', hspan⟩ := ih hs
      refine ⟨word ++ pre, word', post, (List.append_assoc _ _ _).symm, hfirst', ?_⟩
      rw [hspan, byteLength_append, Nat.add_assoc offset]

/-- A segment that stands alone is one segment of its kind. -/
theorem FirstSegment.segmentSpans_eq {kind : SegmentKind} {word rest : List Char}
    (h : FirstSegment kind word rest) : segmentSpans word = [(kind, 0, byteLength word)] := by
  have halone : FirstSegment kind word [] := h.beginsLike (Or.inl rfl)
  have hsegments : segments word = [⟨kind, word⟩] := by
    have hone := segments_append halone
    rwa [List.append_nil, segments] at hone
  rw [segmentSpans, hsegments, segmentSpansFrom, segmentSpansFrom, Nat.zero_add]

/-! ### Bytes of a string -/

theorem toList_toUTF8 (text : String) : text.toUTF8.data.toList = utf8Bytes text.toList := by
  rw [String.toUTF8_eq_toByteArray, ← String.utf8Encode_toList, List.utf8Encode,
    List.toList_data_toByteArray, utf8Bytes]

theorem utf8ByteSize_eq (text : String) : text.utf8ByteSize = byteLength text.toList := by
  rw [← length_utf8Bytes, ← toList_toUTF8, String.toUTF8_eq_toByteArray]
  rfl

/-- The bytes of a beginning of a text end between two of its characters. -/
theorem isValid_byteLength {text : String} {pre post : List Char} (h : text.toList = pre ++ post) :
    String.Pos.Raw.IsValid text ⟨byteLength pre⟩ := by
  rw [String.Pos.Raw.isValid_iff_exists_append]
  refine ⟨String.ofList pre, String.ofList post, ?_, ?_⟩
  · rw [← String.ofList_append, ← h, String.ofList_toList]
  · rw [String.Pos.Raw.ext_iff, String.byteIdx_rawEndPos, utf8ByteSize_eq, String.toList_ofList]

/-- **The word scanner divides a text.** Run on the bytes of a text it finds segments one behind the
other from the first byte to the last, none of them empty. Each begins and ends between characters,
and what it holds, read on its own, is one segment of the same kind. -/
theorem segmentSpans_partition (text : String) :
    byteSpansFrom 0 text.toUTF8.data.toList = segmentSpans text.toList ∧
      Tiles 0 text.utf8ByteSize ((segmentSpans text.toList).map (·.2)) ∧
      ∀ kind start stop, (kind, start, stop) ∈ segmentSpans text.toList →
        String.Pos.Raw.IsValid text ⟨start⟩ ∧ String.Pos.Raw.IsValid text ⟨stop⟩ ∧
          segmentSpans (slice start stop text.toList) = [(kind, 0, stop - start)] := by
  refine ⟨?_, ?_, fun kind start stop hs => ?_⟩
  · rw [toList_toUTF8, byteSpansFrom_utf8Bytes]
    rfl
  · have htiles := tiles_segmentSpansFrom 0 text.toList
    rwa [Nat.zero_add, ← utf8ByteSize_eq] at htiles
  · obtain ⟨pre, word, post, htext, hfirst, hspan⟩ := exists_of_mem_segmentSpansFrom hs
    rw [Nat.zero_add] at hspan
    obtain ⟨rfl, rfl⟩ := Prod.mk.inj hspan
    have hcut : slice (byteLength pre) (byteLength pre + byteLength word) text.toList = word := by
      have hslice := slice_append pre (word ++ post) 0 (byteLength word)
      rwa [Nat.add_zero, slice_zero_append, ← htext] at hslice
    refine ⟨isValid_byteLength htext, ?_, ?_⟩
    · rw [← byteLength_append]
      exact isValid_byteLength (htext.trans (List.append_assoc _ _ _).symm)
    · rw [hcut, hfirst.segmentSpans_eq, Nat.add_sub_cancel_left]

/-- A backslash before a character of two bytes, a sign in an exponent, and a backslash at the end
of the text. -/
theorem segmentSpans_partition_escapedBytes :
    let text := "'\\é' 1e-5 \"\\"
    segmentSpans text.toList =
        [(.quoted, 0, 5), (.other, 5, 6), (.number, 6, 10), (.other, 10, 11), (.quoted, 11, 13)] ∧
      String.Pos.Raw.IsValid text ⟨5⟩ ∧
      segmentSpans (slice 0 5 text.toList) = [(.quoted, 0, 5)] ∧
      segmentSpans (slice 11 13 text.toList) = [(.quoted, 0, 2)] := by
  intro text
  have hspans : segmentSpans text.toList = [(.quoted, 0, 5), (.other, 5, 6), (.number, 6, 10),
      (.other, 10, 11), (.quoted, 11, 13)] := by decide +kernel
  obtain ⟨-, -, hparts⟩ := segmentSpans_partition text
  have hfirst := hparts .quoted 0 5 (by rw [hspans]; decide)
  have hlast := hparts .quoted 11 13 (by rw [hspans]; decide)
  exact ⟨hspans, hfirst.2.1, hfirst.2.2, hlast.2.2⟩

end CInterface
