import Rift.Lib.Bytes

/-!
# Frames on a stream

The envelopes of `sim/codec.go` as the frames of `net/frame.go`: what `WriteFrame` puts on a stream,
`ReadFrame` takes off it again, in whatever pieces the stream delivers the bytes. The reader has a
smaller bound on bodies than the writer, and a stream that ends between a header and its body looks to
it like one that ends between frames.

## Main definitions

* `encode`, `decode` - an envelope as the bytes of a frame, and back.
* `readFrame`, `writeFrame` - one frame off a stream and onto it.

## Main results

* `readFrame_frame`, `readFrame_cut_iff`, `readFrame_large` - a whole frame, one that is cut off, and
  one above the reader's bound.
* `frames_lossless` - for which written frames, and which ends of the stream, framing is lossless.
-/

namespace Rift.Net

open List

structure Envelope where
  fromID : UInt32
  toID : UInt32
  rangeID : UInt64
  kind : UInt16
  body : Bytes
  deriving DecidableEq, Repr

/-- What goes wrong with a frame, with the numbers the message tells. -/
inductive FrameError
  | eof
  | unexpectedEOF
  | frameTooLarge (claimed : ℕ)
  | bodyTooLarge (bytes : ℕ)
  | shortHeader (bytes : ℕ)
  | wireVersion (version : UInt8)
  | shortBody (claimed bytes : ℕ)
  | trailingData (extra : ℕ)
  deriving DecidableEq, Repr

def wireVersion : UInt8 := 1

def frameHeaderBytes : ℕ := 1 + 4 + 4 + 8 + 2 + 4

/-- The writer's bound on a body. -/
def maxBodyBytes : ℕ := 2 ^ 24

/-- The reader's bound on a body. -/
def maxFrameBytes : ℕ := 2 ^ 22

/-- The header of a frame: version, sender, receiver, range, kind and the length of the body. -/
def Envelope.header (e : Envelope) : Bytes :=
  wireVersion :: (putBE 4 e.fromID.toNat ++ (putBE 4 e.toID.toNat ++ (putBE 8 e.rangeID.toNat ++
    (putBE 2 e.kind.toNat ++ putBE 4 e.body.length))))

def encode (e : Envelope) : Except FrameError Bytes :=
  if maxBodyBytes < e.body.length then throw (.bodyTooLarge e.body.length)
  else pure (e.header ++ e.body)

/-- The number in `w` bytes of a frame. -/
def field (buf : Bytes) (offset w : ℕ) : ℕ := getBE ((buf.drop offset).take w)

def decode (buf : Bytes) : Except FrameError Envelope :=
  let n := field buf 19 4
  if buf.length < frameHeaderBytes then throw (.shortHeader buf.length)
  else if buf.headD 0 ≠ wireVersion then throw (.wireVersion (buf.headD 0))
  else if maxBodyBytes < n then throw (.bodyTooLarge n)
  else if buf.length < frameHeaderBytes + n then
    throw (.shortBody n (buf.length - frameHeaderBytes))
  else if frameHeaderBytes + n < buf.length then
    throw (.trailingData (buf.length - frameHeaderBytes - n))
  else pure
    { fromID := .ofNat (field buf 1 4), toID := .ofNat (field buf 5 4)
      rangeID := .ofNat (field buf 9 8), kind := .ofNat (field buf 17 2)
      body := buf.drop frameHeaderBytes }

/-! ### The stream -/

/-- The bytes still to come, in the pieces in which they are delivered. -/
abbrev Stream := List Bytes

/-- Read until there are `n` bytes or the stream ends. -/
def Stream.take : ℕ → Stream → Bytes × Stream
  | _, [] => ([], [])
  | n, seg :: segs =>
    if n ≤ seg.length then (List.take n seg, seg.drop n :: segs)
    else (seg ++ (take (n - seg.length) segs).1, (take (n - seg.length) segs).2)

/-- `io.ReadFull`: all of `n` bytes, or whether the stream ended before any. -/
def readFull (n : ℕ) (r : Stream) : Except FrameError (Bytes × Stream) :=
  if (r.take n).1.length = n then pure (r.take n)
  else if (r.take n).1 = [] then throw .eof
  else throw .unexpectedEOF

def readBody (n : ℕ) (r : Stream) : Except FrameError (Bytes × Stream) :=
  if 0 < n then readFull n r else pure ([], r)

def readFrame (r : Stream) : Except FrameError (Envelope × Stream) := do
  let (head, r) ← readFull frameHeaderBytes r
  let n := field head 19 4
  if maxFrameBytes < n then throw (.frameTooLarge n)
  else
    let (body, r) ← readBody n r
    let e ← decode (head ++ body)
    return (e, r)

/-- Some calls of `ReadFrame`, one after the other. -/
def readFrames : ℕ → Stream → Except FrameError (List Envelope × Stream)
  | 0, r => pure ([], r)
  | k + 1, r => do
    let (e, r) ← readFrame r
    let (es, r) ← readFrames k r
    return (e :: es, r)

/-- `WriteFrame`, on a writer that has taken the bytes `w`. -/
def writeFrame (w : Bytes) (e : Envelope) : Except FrameError Bytes := do
  let buf ← encode e
  return w ++ buf

/-! ### Reading back -/

theorem length_header (e : Envelope) : e.header.length = frameHeaderBytes := by
  simp [Envelope.header, frameHeaderBytes]

section

variable {e : Envelope} (hle : e.body.length ≤ maxBodyBytes)
include hle

theorem field_length (t : Bytes) : field (e.header ++ t) 19 4 = e.body.length := by
  have hput : ((e.header ++ t).drop 19).take 4 = putBE 4 e.body.length := by
    simp [Envelope.header, putBE]
  unfold maxBodyBytes at hle
  rw [field, hput, getBE_putBE (by omega)]

theorem decode_header : decode (e.header ++ e.body) = .ok e := by
  have hfield : ∀ {o w n : ℕ}, ((e.header ++ e.body).drop o).take w = putBE w n → n < 256 ^ w →
      field (e.header ++ e.body) o w = n := fun h hn => by rw [field, h, getBE_putBE hn]
  have hfrom := @hfield 1 4 e.fromID.toNat (by simp [Envelope.header, putBE]) e.fromID.toNat_lt
  have hto := @hfield 5 4 e.toID.toNat (by simp [Envelope.header, putBE]) e.toID.toNat_lt
  have hrange := @hfield 9 8 e.rangeID.toNat (by simp [Envelope.header, putBE]) e.rangeID.toNat_lt
  have hkind := @hfield 17 2 e.kind.toNat (by simp [Envelope.header, putBE]) e.kind.toNat_lt
  have hhead : (e.header ++ e.body).headD 0 = wireVersion := rfl
  simp only [decode, field_length hle, hfrom, hto, hrange, hkind, hhead, length_append,
    length_header, drop_left' (length_header e)]
  rw [if_neg (by omega), if_neg (by simp), if_neg hle.not_gt, if_neg (by omega), if_neg (by omega)]
  simp
  rfl

end

theorem Stream.take_spec (n : ℕ) (r : Stream) :
    (r.take n).1 = r.flatten.take n ∧ (r.take n).2.flatten = r.flatten.drop n := by
  induction r generalizing n with
  | nil => simp [Stream.take]
  | cons seg segs ih =>
    obtain ⟨hgot, hrest⟩ := ih (n - seg.length)
    unfold Stream.take
    split_ifs with hle
    · simp [take_append_of_le_length hle, drop_append_of_le_length hle]
    · have hlt := (not_le.mp hle).le
      simp [hgot, hrest, take_append, drop_append, take_of_length_le hlt,
        drop_of_length_le hlt]

theorem readFull_eq (n : ℕ) (r : Stream) : ∃ r' : Stream, r'.flatten = r.flatten.drop n ∧
    readFull n r = if n ≤ r.flatten.length then .ok (r.flatten.take n, r')
      else if r.flatten = [] then .error .eof else .error .unexpectedEOF := by
  obtain ⟨hgot, hrest⟩ := r.take_spec n
  refine ⟨(r.take n).2, hrest, ?_⟩
  unfold readFull
  by_cases hle : n ≤ r.flatten.length
  · rw [if_pos (by rw [hgot, length_take_of_le hle]), if_pos hle, ← hgot]
    rfl
  · rw [if_neg (by rw [hgot, length_take]; omega), if_neg hle, hgot,
      take_of_length_le (not_le.mp hle).le]
    rfl

theorem readBody_eq_readFull (n : ℕ) (r : Stream) : readBody n r = readFull n r := by
  unfold readBody
  split_ifs with hn
  · rfl
  · obtain rfl : n = 0 := by omega
    cases r <;> rfl

section

variable {e : Envelope} {r : Stream} {t : Bytes}

theorem readFrame_header (hle : e.body.length ≤ maxBodyBytes) (hr : r.flatten = e.header ++ t) :
    ∃ r' : Stream, r'.flatten = t ∧ readFrame r =
      if maxFrameBytes < e.body.length then .error (.frameTooLarge e.body.length)
      else do
        let (body, r) ← readFull e.body.length r'
        let e ← decode (e.header ++ body)
        return (e, r) := by
  obtain ⟨r', hr', hread⟩ := readFull_eq frameHeaderBytes r
  rw [hr, if_pos (by simp [length_header]), take_left' (length_header e)] at hread
  rw [hr, drop_left' (length_header e)] at hr'
  refine ⟨r', hr', ?_⟩
  have hfield := field_length hle []
  rw [append_nil] at hfield
  rw [← readBody_eq_readFull, ← hfield, readFrame, hread]
  rfl

theorem readFrame_frame (hcap : e.body.length ≤ maxFrameBytes)
    (hr : r.flatten = e.header ++ e.body ++ t) :
    ∃ r', readFrame r = .ok (e, r') ∧ r'.flatten = t := by
  have hle : e.body.length ≤ maxBodyBytes := hcap.trans (by decide)
  obtain ⟨r₁, hr₁, hread⟩ := readFrame_header hle (hr.trans (append_assoc _ _ _))
  obtain ⟨r', hr', hbody⟩ := readFull_eq e.body.length r₁
  rw [hr₁, if_pos (by simp), take_left] at hbody
  rw [hr₁, drop_left] at hr'
  refine ⟨r', ?_, hr'⟩
  rw [hread, if_neg hcap.not_gt, hbody]
  change (decode (e.header ++ e.body) >>= fun e => pure (e, r')) = _
  rw [decode_header hle]
  rfl

/-- The reader turns down what the writer accepts between the two bounds. -/
theorem readFrame_large (hle : e.body.length ≤ maxBodyBytes) (hlt : maxFrameBytes < e.body.length)
    (hr : r.flatten = e.header ++ t) : readFrame r = .error (.frameTooLarge e.body.length) := by
  obtain ⟨_, -, hread⟩ := readFrame_header hle hr
  rw [hread, if_pos hlt]

/-- A frame that is cut off is reported as such exactly when the cut lies in the header, or after it
inside a body that keeps the reader's bound. -/
theorem readFrame_cut_iff (hle : e.body.length ≤ maxBodyBytes)
    (hpre : r.flatten <+: e.header ++ e.body) (hpos : r.flatten ≠ [])
    (hlt : r.flatten.length < (e.header ++ e.body).length) :
    readFrame r = .error .unexpectedEOF ↔ r.flatten.length < frameHeaderBytes ∨
      e.body.length ≤ maxFrameBytes ∧ r.flatten.length ≠ frameHeaderBytes := by
  rw [length_append, length_header] at hlt
  by_cases hhead : r.flatten.length < frameHeaderBytes
  · refine iff_of_true ?_ (.inl hhead)
    obtain ⟨_, -, hread⟩ := readFull_eq frameHeaderBytes r
    rw [if_neg hhead.not_ge, if_neg hpos] at hread
    rw [readFrame, hread]
    rfl
  · rw [or_iff_right hhead]
    obtain ⟨t, ht⟩ := prefix_of_prefix_length_le (prefix_append e.header e.body) hpre
      (by rw [length_header]; exact not_lt.mp hhead)
    have hlen := congrArg List.length ht
    rw [length_append, length_header] at hlen
    by_cases hcap : e.body.length ≤ maxFrameBytes
    · obtain ⟨r₁, rfl, hread⟩ := readFrame_header hle ht.symm
      obtain ⟨_, -, hbody⟩ := readFull_eq e.body.length r₁
      have hnil : r₁.flatten = [] ↔ r.flatten.length = frameHeaderBytes := by
        rw [← List.length_eq_zero_iff]
        omega
      rw [if_neg (by omega)] at hbody
      rw [hread, if_neg hcap.not_gt, hbody, and_iff_right hcap, ne_eq, ← hnil]
      split_ifs with h
      · exact iff_of_false (fun heq => by cases heq) (not_not.mpr h)
      · exact iff_of_true rfl h
    · refine iff_of_false (fun heq => ?_) fun h => hcap h.1
      cases (readFrame_large hle (not_le.mp hcap) ht.symm).symm.trans heq

end

variable {es : List Envelope} {bytes : Bytes}

theorem le_of_writeFrame {w : Bytes} {e : Envelope} (h : writeFrame w e = .ok bytes) :
    e.body.length ≤ maxBodyBytes ∧ bytes = w ++ (e.header ++ e.body) := by
  unfold writeFrame encode at h
  by_cases hlt : maxBodyBytes < e.body.length
  · rw [if_pos hlt] at h
    cases h
  · rw [if_neg hlt] at h
    cases h
    exact ⟨not_lt.mp hlt, rfl⟩

/-- The frames that were written are read back as what they are when their bodies keep the reader's
bound, and one of the calls fails when one does not. -/
theorem readFrames_written {w : Bytes} (hw : es.foldlM writeFrame w = .ok bytes) :
    ∃ fs, bytes = w ++ fs ∧ ∀ (r : Stream) (t : Bytes), r.flatten = fs ++ t →
      ((∀ e ∈ es, e.body.length ≤ maxFrameBytes) →
        ∃ r', readFrames es.length r = .ok (es, r') ∧ r'.flatten = t) ∧
      ∀ p, readFrames es.length r = .ok p → ∀ e ∈ es, e.body.length ≤ maxFrameBytes := by
  induction es generalizing w with
  | nil =>
    cases hw
    exact ⟨[], by simp, fun r t hr => ⟨fun _ => ⟨r, rfl, by simpa using hr⟩, by simp⟩⟩
  | cons e es ih =>
    rw [foldlM_cons] at hw
    cases henc : writeFrame w e with
    | error err =>
      rw [henc] at hw
      cases hw
    | ok w' =>
      rw [henc] at hw
      obtain ⟨hbody, rfl⟩ := le_of_writeFrame henc
      obtain ⟨fs, rfl, hread⟩ := ih hw
      refine ⟨e.header ++ e.body ++ fs, by simp, fun r t hr => ?_⟩
      by_cases hhead : e.body.length ≤ maxFrameBytes
      · obtain ⟨r₁, h₁, hr₁⟩ := readFrame_frame hhead (hr.trans (append_assoc _ _ _))
        obtain ⟨hall, honly⟩ := hread r₁ t hr₁
        have hstep : readFrames (es.length + 1) r =
            (do let (es, r) ← readFrames es.length r₁; return (e :: es, r)) := by
          rw [readFrames, h₁]
          rfl
        rw [length_cons, hstep]
        constructor
        · intro hcap
          obtain ⟨r', h', hr'⟩ := hall (forall_mem_cons.mp hcap).2
          refine ⟨r', ?_, hr'⟩
          rw [h']
          rfl
        · intro p hp
          cases hes : readFrames es.length r₁ with
          | error err =>
            rw [hes] at hp
            cases hp
          | ok q => exact forall_mem_cons.mpr ⟨hhead, honly q hes⟩
      · -- The first frame is above the bound, and its call fails.
        have hfail := readFrame_large (t := e.body ++ (fs ++ t)) hbody (not_le.mp hhead)
          (by simpa using hr)
        refine ⟨fun hcap => absurd (hcap e mem_cons_self) hhead, fun p hp => ?_⟩
        rw [length_cons, readFrames, hfail] at hp
        cases hp

/-- Framing is lossless: the envelopes that were written are read back in order from their bytes, in
whatever pieces these are delivered, and after the last one the reader reports the end, exactly when
the bodies keep the reader's bound. A stream that ends inside the next frame is reported as such
exactly when, besides, it ends in the header, or after it inside a body that keeps the bound. -/
theorem frames_lossless (hw : es.foldlM writeFrame [] = .ok bytes) :
    (∀ r : Stream, r.flatten = bytes →
      ((∃ r', readFrames es.length r = .ok (es, r') ∧ readFrame r' = .error .eof) ↔
        ∀ e ∈ es, e.body.length ≤ maxFrameBytes)) ∧
    ∀ e whole, writeFrame bytes e = .ok whole →
      ∀ r : Stream, r.flatten <+: whole → bytes.length < r.flatten.length →
        r.flatten.length < whole.length →
        ((∃ r', readFrames es.length r = .ok (es, r') ∧ readFrame r' = .error .unexpectedEOF) ↔
          (∀ e ∈ es, e.body.length ≤ maxFrameBytes) ∧
            (r.flatten.length < bytes.length + frameHeaderBytes ∨
              e.body.length ≤ maxFrameBytes ∧
                r.flatten.length ≠ bytes.length + frameHeaderBytes)) := by
  obtain ⟨_, rfl, hread⟩ := readFrames_written hw
  refine ⟨fun r hr => ⟨?_, fun hcap => ?_⟩, fun e whole hwhole r hpre hlow hhigh => ?_⟩
  · rintro ⟨r', h', -⟩
    exact (hread r [] (by simpa using hr)).2 _ h'
  · obtain ⟨r', h', hr'⟩ := (hread r [] (by simpa using hr)).1 hcap
    refine ⟨r', h', ?_⟩
    obtain ⟨_, -, heof⟩ := readFull_eq frameHeaderBytes r'
    rw [hr', if_neg (by decide), if_pos rfl] at heof
    rw [readFrame, heof]
    rfl
  · obtain ⟨hbody, rfl⟩ := le_of_writeFrame hwhole
    obtain ⟨t, ht⟩ := prefix_of_prefix_length_le (prefix_append bytes _) hpre hlow.le
    rw [← ht, prefix_append_right_inj] at hpre
    rw [← ht, length_append] at hlow hhigh
    rw [length_append] at hhigh
    have hpos : t ≠ [] := fun hnil => by simp [hnil] at hlow
    have hcut : ∀ r' : Stream, r'.flatten = t → (readFrame r' = .error .unexpectedEOF ↔
        r.flatten.length < bytes.length + frameHeaderBytes ∨ e.body.length ≤ maxFrameBytes ∧
          r.flatten.length ≠ bytes.length + frameHeaderBytes) := by
      intro r' hr'
      rw [← ht, length_append, Nat.add_lt_add_iff_left, ne_eq, Nat.add_right_inj, ← hr']
      exact readFrame_cut_iff hbody (hr' ▸ hpre) (hr' ▸ hpos) (by rw [hr']; omega)
    obtain ⟨hall, honly⟩ := hread r t ht.symm
    constructor
    · rintro ⟨r', h', hend⟩
      have hcap := honly _ h'
      obtain ⟨r₁, h₁, hr₁⟩ := hall hcap
      cases h₁.symm.trans h'
      exact ⟨hcap, (hcut r' hr₁).mp hend⟩
    · rintro ⟨hcap, hend⟩
      obtain ⟨r', h', hr'⟩ := hall hcap
      exact ⟨r', h', (hcut r' hr').mpr hend⟩

/-- A frame with a body of one byte. -/
def sampleEnvelope : Envelope := { fromID := 1, toID := 2, rangeID := 3, kind := 4, body := [7] }

theorem frames_lossless_sample : ∃ r',
    readFrames 1 [[1, 0, 0], [0, 1, 0, 0, 0, 2, 0, 0, 0, 0, 0, 0, 0, 3, 0, 4, 0, 0, 0, 1], [7]] =
      .ok ([sampleEnvelope], r') ∧ readFrame r' = .error .eof :=
  ((@frames_lossless [sampleEnvelope] _ rfl).1 _ rfl).mpr (by decide)

/-- A stream that ends right after the header of a frame with a body is taken for one that ends between
frames. -/
theorem readFrame_eof_after_header : ∃ whole, writeFrame [] sampleEnvelope = .ok whole ∧
    sampleEnvelope.header <+: whole ∧ sampleEnvelope.header.length < whole.length ∧
    readFrame [sampleEnvelope.header] = .error .eof :=
  ⟨_, rfl, prefix_append _ _, by decide, by decide⟩

end Rift.Net
