import HomeCloud.Text
import Mathlib.Data.Bool.AllAny
import Mathlib.Data.List.Basic

/-!
# Plain text

Whether the bytes of an upload are plain text is asked in two places. Both feed the blocks that they read to a
streaming decoder and look for control characters in what it gives; one looks at units and the other at code points.

* `decodeText`: the text of some bytes, without a byte order mark.
* `TextDecoder`, `Faithful`: a decoder that is fed blocks, and what is expected of it.
* `isUtf8PlainText`, `isText`: the two questions.
* `PlainText`: valid UTF-8 without a forbidden control character.
* **`plain_text_agrees`**: both answer whether the bytes are plain text, however they are split.
-/

namespace HomeCloud

namespace PlainText

/-! ## Text and controls -/

/-- The units of a character. -/
def utf16 (c : Char) : JsString :=
  if c.toNat < 0x10000 then [c.toNat.toUInt16]
  else [(0xD800 + (c.toNat - 0x10000) / 0x400).toUInt16, (0xDC00 + (c.toNat - 0x10000) % 0x400).toUInt16]

/-- What is left of a text whose first character is a byte order mark. -/
def withoutMark : List Char → List Char
  | [] => []
  | c :: text => if c.toNat = 0xFEFF then text else c :: text

/-- The text of some bytes, if they are valid UTF-8. -/
def decodeText (bytes : List UInt8) : Option JsString :=
  bytes.toByteArray.utf8Decode?.map fun text => (withoutMark text.toList).flatMap utf16

/-- The control characters that no plain text has. -/
def forbidden (code : ℕ) : Bool := (code < 32 && code ≠ 9 && code ≠ 10 && code ≠ 13) || (127 ≤ code && code ≤ 159)

/-- The code points of a string, a lone surrogate being one of its own. -/
def codePoints : JsString → List ℕ
  | [] => []
  | [c] => [c.toNat]
  | c :: d :: s =>
    if isHighSurrogate c && isLowSurrogate d then ((c.toNat - 0xD800) * 0x400 + (d.toNat - 0xDC00) + 0x10000) :: codePoints s
    else c.toNat :: codePoints (d :: s)

def hasForbiddenControls (text : JsString) : Bool := text.any fun c => forbidden c.toNat

def allowed (text : JsString) : Bool := !(codePoints text).any forbidden

/-- **What plain text is.** -/
def IsPlain (bytes : List UInt8) : Prop :=
  ∃ text : List Char, bytes.toByteArray = text.utf8Encode ∧ ∀ c ∈ text, forbidden c.toNat = false

/-! ## The two questions -/

abbrev Block := List UInt8

/-- A streaming decoder: what it gives for a block, and at the end, after the blocks before; `none` is an error. -/
structure TextDecoder where
  decode : (before : List Block) → (chunk : Block) → Option JsString
  flush : (before : List Block) → Option JsString

namespace TextDecoder

variable (decoder : TextDecoder)

/-- All that a decoder gives for some blocks, where there is no error. -/
def run : (before blocks : List Block) → Option (List JsString)
  | before, [] => (decoder.flush before).map ([·])
  | before, chunk :: blocks => do
    let text ← decoder.decode before chunk
    let texts ← run (before ++ [chunk]) blocks
    return text :: texts

/-- **What is expected**: together the outputs are the text of all bytes, and there is an error when those have none. -/
def Faithful : Prop := ∀ blocks, (decoder.run [] blocks).map List.flatten = decodeText blocks.flatten

/-- The classifier of a stream, whose chunks are read one after the other. -/
def isUtf8PlainText : (before chunks : List Block) → Bool
  | before, [] => (decoder.flush before).any fun text => !hasForbiddenControls text
  | before, chunk :: chunks =>
    match decoder.decode before chunk with
    | none => false
    | some text => if hasForbiddenControls text then false else isUtf8PlainText (before ++ [chunk]) chunks

/-- The classifier of `size` bytes, which are read at an offset; a read that gives nothing ends it. -/
def isText (size : ℕ) : (offset : ℕ) → (before reads : List Block) → Bool
  | offset, before, [] => if offset < size then false else (decoder.flush before).any allowed
  | offset, before, chunk :: reads =>
    if offset < size then
      if chunk = [] then false
      else
        match decoder.decode before chunk with
        | none => false
        | some text => if !allowed text then false else isText size (offset + chunk.length) (before ++ [chunk]) reads
    else (decoder.flush before).any allowed

end TextDecoder

/-! ## Forbidden characters -/

theorem forbidden_large {code : ℕ} (h : 159 < code) : forbidden code = false := by
  unfold forbidden
  simp
  omega

/-- A surrogate is no control character, nor is a pair. -/
theorem any_codePoints (text : JsString) : (codePoints text).any forbidden = hasForbiddenControls text := by
  have hpair {c d : UInt16} (h : (isHighSurrogate c && isLowSurrogate d) = true) :
      forbidden c.toNat = false ∧ forbidden d.toNat = false ∧
        forbidden ((c.toNat - 0xD800) * 0x400 + (d.toNat - 0xDC00) + 0x10000) = false := by
    simp only [isHighSurrogate, isLowSurrogate, Bool.and_eq_true, decide_eq_true_eq, UInt16.le_iff_toNat_le] at h
    obtain ⟨⟨hc, -⟩, hd, -⟩ := h
    have hhigh : (0xD800 : UInt16).toNat = 0xD800 := rfl
    have hlow : (0xDC00 : UInt16).toNat = 0xDC00 := rfl
    exact ⟨forbidden_large (by omega), forbidden_large (by omega), forbidden_large (by omega)⟩
  fun_induction codePoints text with
  | case1 => rfl
  | case2 c => rfl
  | case3 c d text h ih =>
    obtain ⟨hc, hd, hpoint⟩ := hpair h
    unfold hasForbiddenControls at ih ⊢
    rw [List.any_cons, List.any_cons, List.any_cons, ih, hc, hd, hpoint, Bool.false_or, Bool.false_or]
  | case4 c d text h ih =>
    unfold hasForbiddenControls at ih ⊢
    rw [List.any_cons, List.any_cons, ih]

theorem allowed_eq (text : JsString) : allowed text = !hasForbiddenControls text := by
  unfold allowed
  rw [any_codePoints]

theorem hasForbiddenControls_utf16 (c : Char) : hasForbiddenControls (utf16 c) = forbidden c.toNat := by
  have hlt : c.toNat < 0x110000 := by
    have hvalid : c.toNat < 0xD800 ∨ 0xDFFF < c.toNat ∧ c.toNat < 0x110000 := c.valid
    omega
  unfold hasForbiddenControls utf16
  split_ifs with hsmall
  · have hunit : c.toNat.toUInt16.toNat = c.toNat := by
      rw [UInt16.toNat_ofNat']
      omega
    rw [List.any_cons, List.any_nil, Bool.or_false, hunit]
  · have hunit (n : ℕ) (hn : n < 0x10000) : n.toUInt16.toNat = n := by
      rw [UInt16.toNat_ofNat']
      omega
    rw [List.any_cons, List.any_cons, List.any_nil, hunit _ (by omega), hunit _ (by omega), forbidden_large (by omega),
      forbidden_large (by omega), forbidden_large (by omega)]
    rfl

theorem hasForbiddenControls_append (s t : JsString) :
    hasForbiddenControls (s ++ t) = (hasForbiddenControls s || hasForbiddenControls t) := List.any_append

/-- A byte order mark is no control character. -/
theorem hasForbiddenControls_text (text : List Char) :
    hasForbiddenControls ((withoutMark text).flatMap utf16) = text.any fun c => forbidden c.toNat := by
  have hall (text : List Char) : hasForbiddenControls (text.flatMap utf16) = text.any fun c => forbidden c.toNat := by
    induction text with
    | nil => rfl
    | cons c text ih => rw [List.flatMap_cons, hasForbiddenControls_append, ih, hasForbiddenControls_utf16, List.any_cons]
  cases text with
  | nil => rfl
  | cons c text =>
    unfold withoutMark
    dsimp only
    split_ifs with hmark
    · have hfree : forbidden c.toNat = false := hmark ▸ by decide
      rw [hall, List.any_cons, hfree, Bool.false_or]
    · exact hall _

/-- Plain text is text without a forbidden unit. -/
theorem isPlain_iff {bytes : List UInt8} : IsPlain bytes ↔ ∃ text, decodeText bytes = some text ∧ hasForbiddenControls text = false := by
  unfold IsPlain decodeText
  constructor
  · rintro ⟨text, hbytes, hfree⟩
    refine ⟨_, by rw [hbytes, List.utf8Decode?_utf8Encode]; rfl, ?_⟩
    rw [hasForbiddenControls_text, List.any_eq_false]
    exact fun c hc => Bool.eq_false_iff.mp (hfree c hc)
  · rintro ⟨_, htext, hfree⟩
    obtain ⟨chars, hchars, rfl⟩ := Option.map_eq_some_iff.mp htext
    obtain ⟨text, hvalid⟩ := ByteArray.isSome_utf8Decode?_iff.mp (hchars ▸ rfl : (bytes.toByteArray.utf8Decode?).isSome = true)
    rw [hvalid, List.utf8Decode?_utf8Encode] at hchars
    obtain rfl := Option.some.inj hchars
    rw [hasForbiddenControls_text, List.any_eq_false] at hfree
    exact ⟨text, hvalid, fun c hc => Bool.eq_false_iff.mpr (hfree c hc)⟩

/-! ## What is answered -/

namespace TextDecoder

variable {decoder : TextDecoder} {before blocks : List Block}

/-- The first classifier says yes when nothing is an error and no output has a forbidden unit. -/
theorem isUtf8PlainText_iff : decoder.isUtf8PlainText before blocks = true ↔
    ∃ texts, decoder.run before blocks = some texts ∧ hasForbiddenControls texts.flatten = false := by
  induction blocks generalizing before with
  | nil =>
    unfold isUtf8PlainText run
    cases decoder.flush before with
    | none => simp
    | some text => simp
  | cons chunk blocks ih =>
    unfold isUtf8PlainText run
    cases hdecode : decoder.decode before chunk with
    | none => simp
    | some text =>
      simp only [Option.bind_eq_bind, Option.bind_some, Option.bind_eq_some_iff, Option.pure_def, Option.some.injEq]
      cases hforbidden : hasForbiddenControls text with
      | true =>
        refine iff_of_false (by simp) ?_
        rintro ⟨_, ⟨texts, -, rfl⟩, hfree⟩
        rw [List.flatten_cons, hasForbiddenControls_append, hforbidden] at hfree
        cases hfree
      | false =>
        rw [if_neg Bool.false_ne_true, ih]
        constructor
        · rintro ⟨texts, hrun, hfree⟩
          exact ⟨_, ⟨texts, hrun, rfl⟩, by rw [List.flatten_cons, hasForbiddenControls_append, hforbidden, hfree]; rfl⟩
        · rintro ⟨_, ⟨texts, hrun, rfl⟩, hfree⟩
          rw [List.flatten_cons, hasForbiddenControls_append, hforbidden, Bool.false_or] at hfree
          exact ⟨texts, hrun, hfree⟩

/-- On the blocks of the bytes that are left, the second classifier is the first. -/
theorem isText_eq {size offset : ℕ} (hsize : size = offset + blocks.flatten.length) (hread : ∀ chunk ∈ blocks, chunk ≠ []) :
    decoder.isText size offset before blocks = decoder.isUtf8PlainText before blocks := by
  have hallowed : allowed = fun text => !hasForbiddenControls text := funext allowed_eq
  induction blocks generalizing offset before with
  | nil =>
    unfold isText isUtf8PlainText
    rw [List.flatten_nil, List.length_nil, Nat.add_zero] at hsize
    rw [if_neg (by omega), hallowed]
  | cons chunk blocks ih =>
    obtain ⟨hchunk, hrest⟩ := List.forall_mem_cons.mp hread
    have hpos : 0 < chunk.length := List.length_pos_iff.mpr hchunk
    rw [List.flatten_cons, List.length_append] at hsize
    unfold isText isUtf8PlainText
    rw [if_pos (by omega), if_neg hchunk]
    cases decoder.decode before chunk with
    | none => rfl
    | some text =>
      dsimp only
      rw [hallowed, Bool.not_not, ih (by omega) hrest]

/-- **Both say whether the bytes are plain text**, however the reads split them. -/
theorem plain_text_agrees (h : decoder.Faithful) {bytes : List UInt8} {chunks reads : List Block}
    (hchunks : chunks.flatten = bytes) (hreads : reads.flatten = bytes) (hread : ∀ chunk ∈ reads, chunk ≠ []) :
    decoder.isText bytes.length 0 [] reads = decoder.isUtf8PlainText [] chunks ∧
      (decoder.isUtf8PlainText [] chunks = true ↔ IsPlain bytes) := by
  have hanswer {blocks : List Block} (hblocks : blocks.flatten = bytes) :
      decoder.isUtf8PlainText [] blocks = true ↔ IsPlain bytes := by
    rw [isUtf8PlainText_iff, isPlain_iff, ← hblocks, ← h blocks]
    simp only [Option.map_eq_some_iff]
    constructor
    · rintro ⟨texts, hrun, hfree⟩
      exact ⟨_, ⟨texts, hrun, rfl⟩, hfree⟩
    · rintro ⟨_, ⟨texts, hrun, rfl⟩, hfree⟩
      exact ⟨texts, hrun, hfree⟩
  refine ⟨?_, hanswer hchunks⟩
  rw [isText_eq (by rw [hreads, Nat.zero_add]) hread]
  exact Bool.eq_iff_iff.mpr ((hanswer hreads).trans (hanswer hchunks).symm)

end TextDecoder

/-! ## A decoder -/

/-- The text of the longest valid part of the first `n` bytes. -/
def settledTo (bytes : List UInt8) : ℕ → JsString
  | 0 => []
  | n + 1 => (decodeText (bytes.take (n + 1))).getD (settledTo bytes n)

def settled (bytes : List UInt8) : JsString := settledTo bytes bytes.length

/-- A decoder that gives every character once all its bytes are there. -/
def eager : TextDecoder where
  decode before chunk := some ((settled (before ++ [chunk]).flatten).drop (settled before.flatten).length)
  flush before := (decodeText before.flatten).map (·.drop (settled before.flatten).length)

/-- A longer valid part has more text. -/
theorem decodeText_prefix {bytes rest : List UInt8} {text text' : JsString} (h : decodeText bytes = some text)
    (h' : decodeText (bytes ++ rest) = some text') : text <+: text' := by
  obtain ⟨chars, hchars, rfl⟩ := Option.map_eq_some_iff.mp h
  obtain ⟨chars', hchars', rfl⟩ := Option.map_eq_some_iff.mp h'
  obtain ⟨l, hl⟩ := ByteArray.isSome_utf8Decode?_iff.mp (hchars ▸ rfl : (bytes.toByteArray.utf8Decode?).isSome = true)
  obtain ⟨l', hl'⟩ := ByteArray.isSome_utf8Decode?_iff.mp
    (hchars' ▸ rfl : ((bytes ++ rest).toByteArray.utf8Decode?).isSome = true)
  have hshorter : l <+: l' := by
    refine List.isPrefix_of_utf8Encode_append_eq_utf8Encode rest.toByteArray ?_
    rw [← hl, ← hl', List.toByteArray_append]
  rw [hl, List.utf8Decode?_utf8Encode] at hchars
  rw [hl', List.utf8Decode?_utf8Encode] at hchars'
  obtain rfl := Option.some.inj hchars
  obtain rfl := Option.some.inj hchars'
  obtain ⟨m, rfl⟩ := hshorter
  cases l with
  | nil => exact List.nil_prefix
  | cons c l =>
    unfold withoutMark
    dsimp only [List.cons_append]
    split_ifs
    · rw [List.flatMap_append]
      exact List.prefix_append _ _
    · rw [← List.cons_append, List.flatMap_append]
      exact List.prefix_append _ _

theorem settledTo_spec (bytes : List UInt8) (n : ℕ) : ∃ m ≤ n, decodeText (bytes.take m) = some (settledTo bytes n) ∧
    ∀ k ≤ n, decodeText (bytes.take k) ≠ none → k ≤ m := by
  induction n with
  | zero =>
    refine ⟨0, (Nat.le_refl _), ?_, fun k hk _ => hk⟩
    unfold decodeText
    rw [List.take_zero, List.toByteArray_nil, ByteArray.utf8Decode?_empty]
    rfl
  | succ n ih =>
    unfold settledTo
    cases hdecode : decodeText (bytes.take (n + 1)) with
    | some text => exact ⟨n + 1, (Nat.le_refl _), hdecode, fun k hk _ => hk⟩
    | none =>
      obtain ⟨m, hm, htext, hlongest⟩ := ih
      refine ⟨m, by omega, htext, fun k hk hvalid => hlongest k ?_ hvalid⟩
      refine Nat.lt_succ_iff.mp (Nat.lt_of_le_of_ne hk ?_)
      rintro rfl
      exact hvalid hdecode

/-- More bytes settle more text. -/
theorem settled_prefix (bytes rest : List UInt8) : settled bytes <+: settled (bytes ++ rest) := by
  obtain ⟨m, hm, htext, -⟩ := settledTo_spec bytes bytes.length
  obtain ⟨m', hm', htext', hlongest⟩ := settledTo_spec (bytes ++ rest) (bytes ++ rest).length
  have hsame : (bytes ++ rest).take m = bytes.take m := List.take_append_of_le_length hm
  have hle : m ≤ m' := by
    refine hlongest m (by rw [List.length_append]; omega) ?_
    rw [hsame, htext]
    exact Option.some_ne_none _
  have hsplit : (bytes ++ rest).take m' = bytes.take m ++ ((bytes ++ rest).drop m).take (m' - m) := by
    rw [← hsame, ← List.take_add, Nat.add_sub_cancel' hle]
  rw [hsplit] at htext'
  exact decodeText_prefix htext htext'

theorem settled_of_valid {bytes : List UInt8} {text : JsString} (h : decodeText bytes = some text) : settled bytes = text := by
  obtain ⟨m, hm, htext, hlongest⟩ := settledTo_spec bytes bytes.length
  have hall : bytes.length ≤ m := by
    refine hlongest _ (Nat.le_refl _) ?_
    rw [List.take_length, h]
    exact Option.some_ne_none _
  rw [List.take_of_length_le hall, h] at htext
  exact (Option.some.inj htext).symm

/-- What is given after some blocks is what has not been given for them. -/
theorem run_eager (before blocks : List Block) : (eager.run before blocks).map List.flatten =
    (decodeText (before.flatten ++ blocks.flatten)).map (·.drop (settled before.flatten).length) := by
  induction blocks generalizing before with
  | nil =>
    unfold TextDecoder.run eager
    rw [List.flatten_nil, List.append_nil, Option.map_map, Option.map_map]
    refine congrArg₂ _ (funext fun text => ?_) rfl
    simp
  | cons chunk blocks ih =>
    have hbytes : (before ++ [chunk]).flatten ++ blocks.flatten = before.flatten ++ (chunk :: blocks).flatten := by simp
    have hrest := ih (before ++ [chunk])
    rw [hbytes] at hrest
    have hsettled : (before ++ [chunk]).flatten = before.flatten ++ chunk := by simp
    have hdecode : eager.decode before chunk =
        some ((settled (before ++ [chunk]).flatten).drop (settled before.flatten).length) := rfl
    unfold TextDecoder.run
    rw [hdecode, Option.bind_eq_bind, Option.bind_some]
    cases hrun : eager.run (before ++ [chunk]) blocks with
    | none =>
      rw [hrun] at hrest
      have hnone := Option.map_eq_none_iff.mp hrest.symm
      rw [hnone]
      rfl
    | some texts =>
      rw [hrun] at hrest
      obtain ⟨text, htext, hlast⟩ := Option.map_eq_some_iff.mp hrest.symm
      have hfirst : settled before.flatten <+: settled (before ++ [chunk]).flatten := hsettled ▸ settled_prefix _ chunk
      have hsecond : settled (before ++ [chunk]).flatten <+: text := by
        rw [← settled_of_valid htext, ← hbytes]
        exact settled_prefix _ _
      obtain ⟨s, hs⟩ := hfirst
      obtain ⟨t, ht⟩ := hsecond
      rw [htext]
      refine congrArg some ?_
      have hdrop (a b : JsString) : (a ++ b).drop a.length = b := List.drop_left
      rw [List.flatten_cons, ← hlast, ← ht, ← hs]
      dsimp only
      rw [hdrop, hdrop, List.append_assoc, hdrop]

theorem faithful_eager : eager.Faithful := by
  intro blocks
  rw [run_eager]
  have hnone : settled (List.flatten ([] : List Block)) = [] := rfl
  rw [hnone, List.flatten_nil, List.nil_append, List.length_nil]
  simp

/-- `Aé`, read as one block and with the second character cut in two. -/
theorem plain_text_agrees_of_cut : eager.isText 3 0 [] [[0x41, 0xC3], [0xA9]] = true ∧
    eager.isUtf8PlainText [] [[0x41, 0xC3, 0xA9]] = true := by
  have hagrees := @TextDecoder.plain_text_agrees eager faithful_eager [0x41, 0xC3, 0xA9] [[0x41, 0xC3, 0xA9]]
    [[0x41, 0xC3], [0xA9]] rfl rfl (by decide)
  have hplain : eager.isUtf8PlainText [] [[0x41, 0xC3, 0xA9]] = true := hagrees.2.mpr ⟨['A', 'é'], rfl, List.all_iff_forall_prop.mp (by decide)⟩
  exact ⟨hagrees.1.trans hplain, hplain⟩

end PlainText

end HomeCloud
