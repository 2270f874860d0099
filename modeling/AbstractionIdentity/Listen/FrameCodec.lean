import AbstractionIdentity.Listen.Response
import AbstractionIdentity.Stream.Sink

/-!
# The frame codec

A `FrameRead` is the answer of `ReadFrameFrom` with what it leaves of the stream and the room it
allocated, so that it can be said that an oversized header costs neither. `frameLimit` is below
`2 ^ 30`, so the header of a frame is none of the control words.
-/

namespace Listen

open Text Stream List

/-- Why a frame was not written: its length, a count the writer should not have reported,
or the writer's own error. -/
inductive FrameWriteErr where
  | frameTooLarge
  | shortWrite
  | writer (code : ℕ)
  deriving DecidableEq

def writeHeadedCount (w : Writer FrameWriteErr) (header : UInt32) (frame out : Bytes) :
    Sunk FrameWriteErr :=
  writeParts w .shortWrite (headed header frame) ⟨out, 0, none⟩

def writeFrame (w : Writer FrameWriteErr) (frame : Bytes) (limit : ℕ) (out : Bytes) :
    Sunk FrameWriteErr :=
  if limit < frame.length then ⟨out, 0, some .frameTooLarge⟩
  else writeHeadedCount w (.ofNat frame.length) frame out

def writeFrameTo (w : Writer FrameWriteErr) (frame : Bytes) (limit : UInt32) (out : Bytes) :
    Sunk FrameWriteErr :=
  writeFrame w frame (frameLimit limit) out

def writeFramesTo (w : Writer FrameWriteErr) (limit : UInt32) :
    List Bytes → Bytes → Sunk FrameWriteErr
  | [], out => ⟨out, 0, none⟩
  | frame :: frames, out =>
    let s := writeFrameTo w frame limit out
    if s.err.isSome then s else writeFramesTo w limit frames s.out

/-- The answer of a reader, what it leaves of the stream, and the bytes it allocated for
the payload. -/
structure FrameRead where
  result : Except ClientErr Bytes
  rest : Bytes
  allocated : ℕ

def maxInt (wide : Bool) : ℕ := if wide then 2 ^ 63 - 1 else 2 ^ 31 - 1

section Read

variable (chunk : ℕ → Bytes → ℕ) (wide : Bool)

def readFrameBody (n : UInt32) (limit : ℕ) (inn : Bytes) : FrameRead :=
  if limit < n.toNat ∨ maxInt wide < n.toNat then ⟨.error .frameTooLarge, inn, 0⟩
  else
    let (got, rest) := readFull chunk n.toNat inn
    ⟨if got.length = n.toNat then .ok got else .error (endError got), rest, n.toNat⟩

def readFrameFrom (limit : UInt32) (inn : Bytes) : FrameRead :=
  let (header, rest) := readFull chunk 4 inn
  if header.length ≠ 4 then ⟨.error (endError header), rest, 0⟩
  else if unword header = proofRefusalHeader then
    ⟨.error (readProofRefusal chunk rest), (readFull chunk 2 rest).2, 0⟩
  else readFrameBody chunk wide (unword header) (frameLimit limit) rest

def readFramesFrom (limit : UInt32) : ℕ → Bytes → List (Except ClientErr Bytes) × Bytes
  | 0, inn => ([], inn)
  | n + 1, inn =>
    let r := readFrameFrom chunk wide limit inn
    let (results, rest) := readFramesFrom limit n r.rest
    (r.result :: results, rest)

end Read

def encoding (frame : Bytes) : Bytes := word (.ofNat frame.length) ++ frame

variable {chunk : ℕ → Bytes → ℕ} {wide : Bool} {limit : UInt32} {frame inn out : Bytes}
  {w : Writer FrameWriteErr}

theorem toNat_length (h : frame.length ≤ frameLimit limit) :
    (UInt32.ofNat frame.length).toNat = frame.length := by
  have hlt := frameLimit_lt limit
  rw [UInt32.toNat_ofNat']
  omega

theorem encoding_flags (h : frame.length ≤ frameLimit limit) :
    isSession (.ofNat frame.length) = false ∧ isOneWay (.ofNat frame.length) = false := by
  have hlt := frameLimit_lt limit
  have hnat := toNat_length h
  refine ⟨?_, ?_⟩
  · rw [← Bool.not_eq_true, isSession_iff]
    omega
  · rw [← Bool.not_eq_true, isOneWay_iff]
    omega

theorem encoding_ne_refusal (h : frame.length ≤ frameLimit limit) :
    UInt32.ofNat frame.length ≠ proofRefusalHeader := by
  intro heq
  have hflag := (encoding_flags h).1
  rw [heq] at hflag
  exact absurd hflag (by decide)

theorem frameLimit_le_maxInt (limit : UInt32) (wide : Bool) : frameLimit limit ≤ maxInt wide := by
  have hlt := frameLimit_lt limit
  cases wide <;> simp only [maxInt, Bool.false_eq_true, ↓reduceIte] <;> omega

section Write

theorem writeFrameTo_eq (hw : w.Progress) (h : frame.length ≤ frameLimit limit) (out : Bytes) :
    writeFrameTo w frame limit out = ⟨out ++ encoding frame, (encoding frame).length, none⟩ := by
  rw [writeFrameTo, writeFrame, if_neg (Nat.not_lt.2 h), writeHeadedCount,
    writeParts_eq hw, flatten_headed, Nat.zero_add]
  rfl

theorem writeFramesTo_eq (hw : w.Progress) {frames : List Bytes}
    (h : ∀ frame ∈ frames, frame.length ≤ frameLimit limit) (out : Bytes) :
    (writeFramesTo w limit frames out).err = none ∧
      (writeFramesTo w limit frames out).out = out ++ frames.flatMap encoding := by
  induction frames generalizing out with
  | nil => simp [writeFramesTo]
  | cons frame frames ih =>
    have hrest := ih (fun f hf => h f (.tail _ hf)) (out ++ encoding frame)
    rw [writeFramesTo, writeFrameTo_eq hw (h frame (.head _))]
    simpa using hrest

end Write

section Read

theorem readFrameFrom_short (h : inn.length < 4) :
    readFrameFrom chunk wide limit inn = ⟨.error (endError inn), [], 0⟩ := by
  rw [readFrameFrom, readFull_eq, take_of_length_le h.le, drop_eq_nil_of_le h.le]
  simp only [ne_eq, h.ne, not_false_eq_true, ↓reduceIte]

theorem readFrameFrom_long (h : 4 ≤ inn.length) : readFrameFrom chunk wide limit inn =
      if unword inn = proofRefusalHeader then
        ⟨.error (readProofRefusal chunk (inn.drop 4)), (readFull chunk 2 (inn.drop 4)).2, 0⟩
      else readFrameBody chunk wide (unword inn) (frameLimit limit) (inn.drop 4) := by
  have hlen : (inn.take 4).length = 4 := by
    rw [length_take]
    omega
  rw [readFrameFrom, readFull_eq]
  simp only [hlen, ne_eq, not_true_eq_false, ↓reduceIte, unword_take]

theorem readFrameFrom_word (header : UInt32) (rest : Bytes) :
    readFrameFrom chunk wide limit (word header ++ rest) =
      if header = proofRefusalHeader then
        ⟨.error (readProofRefusal chunk rest), (readFull chunk 2 rest).2, 0⟩
      else readFrameBody chunk wide header (frameLimit limit) rest := by
  have hrest : (word header ++ rest).drop 4 = rest := drop_left' (length_word header)
  rw [readFrameFrom_long (by simp), unword_word_append, hrest]

theorem readFrameFrom_encoding (h : frame.length ≤ frameLimit limit) (rest : Bytes) :
    readFrameFrom chunk wide limit (encoding frame ++ rest) = ⟨.ok frame, rest, frame.length⟩ := by
  have hint := frameLimit_le_maxInt limit wide
  rw [encoding, append_assoc, readFrameFrom_word, if_neg (encoding_ne_refusal h),
    readFrameBody, toNat_length h, if_neg (by omega), readFull_eq]
  simp

theorem readFramesFrom_encodings {frames : List Bytes}
    (h : ∀ frame ∈ frames, frame.length ≤ frameLimit limit) (rest : Bytes) :
    readFramesFrom chunk wide limit frames.length (frames.flatMap encoding ++ rest) =
      (frames.map .ok, rest) := by
  induction frames with
  | nil => rfl
  | cons frame frames ih =>
    have hrest := ih fun f hf => h f (.tail _ hf)
    rw [length_cons, readFramesFrom, flatMap_cons, append_assoc,
      readFrameFrom_encoding (h frame (.head _))]
    simp only [hrest, map_cons]

theorem readFrameFrom_part (h : frame.length ≤ frameLimit limit) (hpart : inn <+: encoding frame)
    (hne : inn ≠ encoding frame) :
    ∃ e, (readFrameFrom chunk wide limit inn).result = .error e := by
  have hlen : inn.length < (encoding frame).length := by
    by_contra hge
    exact hne (hpart.eq_of_length_le (Nat.not_lt.1 hge))
  rw [encoding, length_append, length_word] at hlen
  rcases Nat.lt_or_ge inn.length 4 with hshort | hlong
  · exact ⟨endError inn, by rw [readFrameFrom_short hshort]⟩
  · -- the header is whole, so that it is the body that ends too early
    obtain ⟨t, rfl⟩ : word (.ofNat frame.length) <+: inn :=
      prefix_of_prefix_length_le (prefix_append _ frame) hpart (by simpa using hlong)
    rw [length_append, length_word] at hlen
    have hint := frameLimit_le_maxInt limit wide
    have hgot : (t.take frame.length).length ≠ frame.length := by
      rw [length_take]
      omega
    refine ⟨endError (t.take frame.length), ?_⟩
    rw [readFrameFrom_word, if_neg (encoding_ne_refusal h), readFrameBody, toNat_length h,
      if_neg (by omega), readFull_eq]
    simp only [hgot, ↓reduceIte]

theorem readFrameFrom_oversize {header : UInt32} (h : frameLimit limit < header.toNat)
    (rest : Bytes) :
    (header ≠ proofRefusalHeader → readFrameFrom chunk wide limit (word header ++ rest) =
        ⟨.error .frameTooLarge, rest, 0⟩) ∧
    (header = proofRefusalHeader → readFrameFrom chunk wide limit (word header ++ rest) =
        ⟨.error (readProofRefusal chunk rest), rest.drop 2, 0⟩) := by
  refine ⟨fun hne => ?_, fun heq => ?_⟩
  · rw [readFrameFrom_word, if_neg hne, readFrameBody, if_pos (.inl h)]
  · rw [readFrameFrom_word, if_pos heq, readFull_eq]

end Read

/-- Whatever portions are written and read: the frames are read back with nothing left, a part of an
encoding is an error, a length beyond the limit is refused with nothing read or allocated, and a
header has bits 31 and 30 clear. -/
theorem frame_codec_round_trip (wide : Bool) (limit : UInt32) (chunk : ℕ → Bytes → ℕ)
    (w : Writer FrameWriteErr) (hw : w.Progress) :
    (∀ frames : List Bytes, (∀ frame ∈ frames, frame.length ≤ frameLimit limit) →
      (writeFramesTo w limit frames []).err = none ∧
      readFramesFrom chunk wide limit frames.length (writeFramesTo w limit frames []).out =
        (frames.map .ok, [])) ∧
    (∀ frame : Bytes, frame.length ≤ frameLimit limit →
      (∀ inn, inn <+: (writeFrameTo w frame limit []).out →
        inn ≠ (writeFrameTo w frame limit []).out →
        ∃ e, (readFrameFrom chunk wide limit inn).result = .error e) ∧
      ∃ header, (writeFrameTo w frame limit []).out = word header ++ frame ∧
        isSession header = false ∧ isOneWay header = false) ∧
    (∀ (header : UInt32) (rest : Bytes), frameLimit limit < header.toNat →
      (header ≠ proofRefusalHeader → readFrameFrom chunk wide limit (word header ++ rest) =
          ⟨.error .frameTooLarge, rest, 0⟩) ∧
      (header = proofRefusalHeader → readFrameFrom chunk wide limit (word header ++ rest) =
          ⟨.error (readProofRefusal chunk rest), rest.drop 2, 0⟩)) := by
  refine ⟨fun frames h => ?_, fun frame h => ?_, fun header rest h =>
    readFrameFrom_oversize h rest⟩
  · obtain ⟨herr, hout⟩ := writeFramesTo_eq hw h []
    refine ⟨herr, ?_⟩
    have hread := @readFramesFrom_encodings chunk wide limit frames h []
    rw [append_nil] at hread
    rw [hout, nil_append, hread]
  · have hout : (writeFrameTo w frame limit []).out = encoding frame := by
      rw [writeFrameTo_eq hw h, nil_append]
    rw [hout]
    exact ⟨fun inn hpart hne => readFrameFrom_part h hpart hne, _, rfl, encoding_flags h⟩

def oneByteWriter : Writer FrameWriteErr := fun _ _ => (1, none)

theorem frame_codec_round_trip_oneByte : readFramesFrom (fun _ _ => 1) true 0 2
      (writeFramesTo oneByteWriter 0 [[7], []] []).out = ([.ok [7], .ok []], []) := by
  have hw : oneByteWriter.Progress := fun _ part h =>
    ⟨1, Nat.one_pos, length_pos_iff.2 h, rfl⟩
  exact ((frame_codec_round_trip true 0 (fun _ _ => 1) oneByteWriter hw).1 [[7], []]
    (by decide)).2

end Listen
