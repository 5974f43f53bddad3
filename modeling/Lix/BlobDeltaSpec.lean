import Lix.BlobDelta

/-! Correctness of the flat delta programs. A program's bytes over a base split along the
program; slicing a program keeps the window of its bytes; merging neighbours keeps its bytes and
leaves a normal form; so the program staged for a splice spells the spliced bytes. Over chunks
that hold the base in order, the store's reconstruction computes exactly these bytes. -/
namespace Lix.BinaryCas
open ListWindow KeyCodec

variable {base : List UInt8}

section Apply

@[simp] theorem applyDelta_nil : applyDelta base [] = some [] := rfl

theorem applyDelta_cons_eq_some {segment : BlobDeltaSegment} {rest : List BlobDeltaSegment}
    {bytes : List UInt8} :
    applyDelta base (segment :: rest) = some bytes ↔
      ∃ first more, segmentBytes base segment = some first ∧ applyDelta base rest = some more ∧
        bytes = first ++ more := by
  simp only [applyDelta, List.mapM_cons, Option.bind_eq_bind, Option.pure_def,
    Option.map_eq_some_iff, Option.bind_eq_some_iff, Option.some.injEq]
  constructor
  · rintro ⟨_, ⟨first, hfirst, parts, hparts, rfl⟩, rfl⟩
    exact ⟨first, parts.flatten, hfirst, ⟨parts, hparts, rfl⟩, by simp⟩
  · rintro ⟨first, _, hfirst, ⟨parts, hparts, rfl⟩, rfl⟩
    exact ⟨_, ⟨first, hfirst, parts, hparts, rfl⟩, by simp⟩

theorem applyDelta_append {xs ys : List BlobDeltaSegment} {a b : List UInt8}
    (hxs : applyDelta base xs = some a) (hys : applyDelta base ys = some b) :
    applyDelta base (xs ++ ys) = some (a ++ b) := by
  induction xs generalizing a with
  | nil =>
    obtain rfl : a = [] := by simpa using hxs.symm
    simpa using hys
  | cons x xs ih =>
    obtain ⟨first, more, hfirst, hmore, rfl⟩ := applyDelta_cons_eq_some.mp hxs
    rw [List.cons_append, applyDelta_cons_eq_some]
    exact ⟨first, more ++ b, hfirst, ih hmore, by simp⟩

theorem applyDelta_append_eq_some {xs ys : List BlobDeltaSegment} {bytes : List UInt8}
    (h : applyDelta base (xs ++ ys) = some bytes) :
    ∃ a b, applyDelta base xs = some a ∧ applyDelta base ys = some b ∧ bytes = a ++ b := by
  induction xs generalizing bytes with
  | nil => exact ⟨[], bytes, rfl, h, rfl⟩
  | cons x xs ih =>
    rw [List.cons_append, applyDelta_cons_eq_some] at h
    obtain ⟨first, more, hfirst, hmore, rfl⟩ := h
    obtain ⟨a, b, ha, hb, rfl⟩ := ih hmore
    exact ⟨first ++ a, b, applyDelta_cons_eq_some.mpr ⟨first, a, hfirst, ha, rfl⟩, hb, by simp⟩

theorem applyDelta_singleton {segment : BlobDeltaSegment} {bytes : List UInt8}
    (h : segmentBytes base segment = some bytes) : applyDelta base [segment] = some bytes :=
  applyDelta_cons_eq_some.mpr ⟨bytes, [], h, rfl, by simp⟩

theorem length_segmentBytes {segment : BlobDeltaSegment} {bytes : List UInt8}
    (h : segmentBytes base segment = some bytes) : bytes.length = deltaSegmentLen segment := by
  cases segment with
  | copy offset length =>
    simp only [segmentBytes] at h
    split_ifs at h with hle
    cases h
    simp [deltaSegmentLen]
    omega
  | insert inserted =>
    cases h
    rfl

end Apply

section Slice

/-- The part of a piece at `position` inside `start..stop`, as the slicing loops clamp it, is
the window of the piece shifted by `position`. -/
theorem clampedWindow_eq (piece : List UInt8) (position start stop : ℕ) :
    (if max start position < min stop (position + piece.length) then
        window piece (max start position - position) (min stop (position + piece.length) - position)
      else []) = window piece (start - position) (stop - position) := by
  split_ifs with h
  · have hstart : max start position - position = start - position := by omega
    have hstop : min stop (position + piece.length) - position =
        min (stop - position) piece.length := by omega
    rw [hstart, hstop, window_min_length]
  · exact (window_eq_nil_of_min_le (by omega)).symm

theorem segmentBytes_sliceSegment {segment : BlobDeltaSegment} {bytes : List UInt8}
    (h : segmentBytes base segment = some bytes) {localStart localEnd : ℕ}
    (hle : localStart ≤ localEnd) (hend : localEnd ≤ deltaSegmentLen segment) :
    segmentBytes base (sliceSegment segment localStart localEnd) =
      some (window bytes localStart localEnd) := by
  cases segment with
  | copy offset length =>
    simp only [segmentBytes] at h
    split_ifs at h with hbase
    cases h
    simp only [deltaSegmentLen] at hend
    rw [sliceSegment, segmentBytes, if_pos (by omega), window_window, min_eq_right (by omega)]
    congr 2
    omega
  | insert inserted =>
    cases h
    rfl

/-- One iteration of the slicing loop: the piece of the segment inside the range, then stop or
go on from the segment's end. -/
theorem sliceLoop_cons (start stop logical : ℕ) (out : List BlobDeltaSegment)
    (segment : BlobDeltaSegment) (rest : List BlobDeltaSegment) :
    sliceLoop start stop logical out (segment :: rest) =
      let piece := if max start logical < min stop (logical + deltaSegmentLen segment) then
          [sliceSegment segment (max start logical - logical)
            (min stop (logical + deltaSegmentLen segment) - logical)]
        else []
      if logical + deltaSegmentLen segment ≥ stop then some (out ++ piece)
      else sliceLoop start stop (logical + deltaSegmentLen segment) (out ++ piece) rest := by
  simp only [sliceLoop]
  split_ifs <;> simp

/-- The slicing loop keeps the window `start..stop` of the bytes of the segments it reads, which
start at `logical`. -/
theorem sliceLoop_eq_some (start stop : ℕ) {segments : List BlobDeltaSegment}
    {bytes : List UInt8} (h : applyDelta base segments = some bytes) (logical : ℕ)
    (out : List BlobDeltaSegment) (hstop : stop ≤ logical + bytes.length) :
    ∃ mid, sliceLoop start stop logical out segments = some (out ++ mid) ∧
      applyDelta base mid = some (window bytes (start - logical) (stop - logical)) := by
  induction segments generalizing logical out bytes with
  | nil =>
    obtain rfl : bytes = [] := by simpa using h.symm
    refine ⟨[], ?_, by simp⟩
    rw [sliceLoop, if_pos (by simpa using hstop), List.append_nil]
  | cons segment rest ih =>
    obtain ⟨first, more, hfirst, hmore, rfl⟩ := applyDelta_cons_eq_some.mp h
    have hlen := length_segmentBytes hfirst
    have hpiece : applyDelta base
        (if max start logical < min stop (logical + deltaSegmentLen segment) then
          [sliceSegment segment (max start logical - logical)
            (min stop (logical + deltaSegmentLen segment) - logical)]
        else []) = some (window first (start - logical) (stop - logical)) := by
      rw [← clampedWindow_eq first logical start stop, hlen]
      split_ifs with hc
      · exact applyDelta_singleton (segmentBytes_sliceSegment hfirst (by omega) (by omega))
      · rfl
    rw [sliceLoop_cons]
    dsimp only
    rw [List.length_append] at hstop
    by_cases hreach : logical + deltaSegmentLen segment ≥ stop
    · -- the range ends in this segment: nothing of the rest is inside it
      refine ⟨_, by rw [if_pos hreach], ?_⟩
      have hrest : window more (start - logical - first.length) (stop - logical - first.length) = [] :=
        window_of_le (by omega)
      rw [hpiece, window_append, hrest, List.append_nil]
    · obtain ⟨mid, hloop, hmid⟩ := ih hmore (logical + deltaSegmentLen segment) _ (by omega)
      refine ⟨_, by rw [if_neg hreach, hloop, List.append_assoc], ?_⟩
      rw [applyDelta_append hpiece hmid, window_append, hlen, Nat.sub_sub, Nat.sub_sub]

theorem sliceDeltaSegments_eq_some {segments : List BlobDeltaSegment} {bytes : List UInt8}
    (h : applyDelta base segments = some bytes) {start stop : ℕ} (hle : start ≤ stop)
    (hstop : stop ≤ bytes.length) :
    ∃ sliced, sliceDeltaSegments segments start stop = some sliced ∧
      applyDelta base sliced = some (window bytes start stop) := by
  obtain ⟨mid, hloop, hmid⟩ := sliceLoop_eq_some start stop h 0 [] (by omega)
  exact ⟨mid, by rw [sliceDeltaSegments, if_neg (by omega), hloop, List.nil_append], hmid⟩

end Slice

section Normalize

/-- Two neighbours that `normalize_delta_segments` joins: a copy and the copy that starts where
it ends, or two inserts. -/
def Mergeable : BlobDeltaSegment → BlobDeltaSegment → Prop
  | .copy offset length, .copy nextOffset _ => offset + length = nextOffset
  | .insert _, .insert _ => True
  | _, _ => False

/-- The segment two joinable neighbours become. -/
def joinSegments : BlobDeltaSegment → BlobDeltaSegment → BlobDeltaSegment
  | .copy offset length, .copy _ nextLength => .copy offset (length + nextLength)
  | .insert bytes, .insert next => .insert (bytes ++ next)
  | segment, _ => segment

/-- The normal form of a program: no empty segment and no two neighbours that join. -/
structure Normalized (segments : List BlobDeltaSegment) : Prop where
  nonempty : ∀ segment ∈ segments, deltaSegmentLen segment ≠ 0
  unjoined : segments.IsChain fun a b => ¬Mergeable a b

theorem normalized_nil : Normalized [] := ⟨by simp, List.isChain_nil⟩

variable {segment last : BlobDeltaSegment}

theorem pushNormalized_of_len_eq_zero (out : List BlobDeltaSegment)
    (h : deltaSegmentLen segment = 0) : pushNormalized out segment = out := by
  simp [pushNormalized, h]

theorem pushNormalized_nil (h : deltaSegmentLen segment ≠ 0) :
    pushNormalized [] segment = [segment] := by
  simp [pushNormalized, h]

theorem pushNormalized_concat_of_mergeable (init : List BlobDeltaSegment)
    (h : deltaSegmentLen segment ≠ 0) (hm : Mergeable last segment) :
    pushNormalized (init ++ [last]) segment = init ++ [joinSegments last segment] := by
  cases last <;> cases segment <;> simp_all [pushNormalized, Mergeable, joinSegments]

theorem pushNormalized_concat_of_not_mergeable (init : List BlobDeltaSegment)
    (h : deltaSegmentLen segment ≠ 0) (hm : ¬Mergeable last segment) :
    pushNormalized (init ++ [last]) segment = init ++ [last] ++ [segment] := by
  cases last <;> cases segment <;> simp_all [pushNormalized, Mergeable]

/-- A joined segment spells what its two parts spell. -/
theorem segmentBytes_joinSegments (hm : Mergeable last segment) {a b : List UInt8}
    (hlast : segmentBytes base last = some a) (hsegment : segmentBytes base segment = some b) :
    segmentBytes base (joinSegments last segment) = some (a ++ b) := by
  cases last <;> cases segment <;> simp only [Mergeable] at hm
  case copy.copy offset length nextOffset nextLength =>
    simp only [segmentBytes] at hlast hsegment
    split_ifs at hlast hsegment with h1 h2
    cases hlast
    cases hsegment
    rw [joinSegments, segmentBytes, if_pos (by omega), ← hm,
      window_append_window base (by omega) (by omega), Nat.add_assoc]
  case insert.insert bytes next =>
    cases hlast
    cases hsegment
    rfl

theorem deltaSegmentLen_joinSegments (hm : Mergeable last segment) :
    deltaSegmentLen (joinSegments last segment) = deltaSegmentLen last + deltaSegmentLen segment := by
  cases last <;> cases segment <;> simp_all [Mergeable, joinSegments, deltaSegmentLen]

/-- A joined segment joins with what its first part joins with: a copy's start and an insert's
kind are kept. -/
theorem mergeable_joinSegments_iff (hm : Mergeable last segment) (x : BlobDeltaSegment) :
    Mergeable x (joinSegments last segment) ↔ Mergeable x last := by
  cases x <;> cases last <;> cases segment <;> simp_all [Mergeable, joinSegments]

theorem segmentBytes_of_applyDelta_singleton {bytes : List UInt8}
    (h : applyDelta base [segment] = some bytes) : segmentBytes base segment = some bytes := by
  obtain ⟨first, more, hfirst, hmore, rfl⟩ := applyDelta_cons_eq_some.mp h
  obtain rfl : more = [] := by simpa using hmore.symm
  simpa using hfirst

/-- Pushing a segment appends its bytes. -/
theorem applyDelta_pushNormalized {out : List BlobDeltaSegment} {a b : List UInt8}
    (hout : applyDelta base out = some a) (hsegment : segmentBytes base segment = some b) :
    applyDelta base (pushNormalized out segment) = some (a ++ b) := by
  by_cases hz : deltaSegmentLen segment = 0
  · obtain rfl : b = [] := List.eq_nil_of_length_eq_zero (by rw [length_segmentBytes hsegment, hz])
    rwa [pushNormalized_of_len_eq_zero out hz, List.append_nil]
  rcases List.eq_nil_or_concat out with rfl | ⟨init, last, rfl⟩
  · obtain rfl : a = [] := by simpa using hout.symm
    rw [pushNormalized_nil hz]
    exact applyDelta_singleton hsegment
  · rw [List.concat_eq_append] at hout ⊢
    by_cases hm : Mergeable last segment
    · obtain ⟨ai, al, hinit, hlast, rfl⟩ := applyDelta_append_eq_some hout
      rw [pushNormalized_concat_of_mergeable init hz hm, List.append_assoc]
      exact applyDelta_append hinit (applyDelta_singleton (segmentBytes_joinSegments hm
        (segmentBytes_of_applyDelta_singleton hlast) hsegment))
    · rw [pushNormalized_concat_of_not_mergeable init hz hm]
      exact applyDelta_append hout (applyDelta_singleton hsegment)

/-- Pushing a segment keeps the normal form. -/
theorem normalized_pushNormalized {out : List BlobDeltaSegment} (h : Normalized out)
    (segment : BlobDeltaSegment) : Normalized (pushNormalized out segment) := by
  by_cases hz : deltaSegmentLen segment = 0
  · rwa [pushNormalized_of_len_eq_zero out hz]
  rcases List.eq_nil_or_concat out with rfl | ⟨init, last, rfl⟩
  · rw [pushNormalized_nil hz]
    exact ⟨by simpa using hz, List.isChain_singleton _⟩
  · rw [List.concat_eq_append] at h ⊢
    obtain ⟨hne, hchain⟩ := h
    rw [List.isChain_append] at hchain
    obtain ⟨hinit, -, hboundary⟩ := hchain
    by_cases hm : Mergeable last segment
    · rw [pushNormalized_concat_of_mergeable init hz hm]
      refine ⟨?_, List.isChain_append.mpr ⟨hinit, List.isChain_singleton _, ?_⟩⟩
      · intro x hx
        rcases List.mem_append.mp hx with hx | hx
        · exact hne x (List.mem_append_left _ hx)
        · rw [List.mem_singleton.mp hx, deltaSegmentLen_joinSegments hm]
          have := hne last (by simp)
          omega
      · intro x hx y hy
        obtain rfl : y = joinSegments last segment := by simpa using hy.symm
        rw [mergeable_joinSegments_iff hm]
        exact hboundary x hx last (by simp)
    · rw [pushNormalized_concat_of_not_mergeable init hz hm]
      refine ⟨?_, List.isChain_append.mpr ⟨?_, List.isChain_singleton _, ?_⟩⟩
      · intro x hx
        rcases List.mem_append.mp hx with hx | hx
        · exact hne x hx
        · rwa [List.mem_singleton.mp hx]
      · exact List.isChain_append.mpr ⟨hinit, List.isChain_singleton _, hboundary⟩
      · intro x hx y hy
        obtain rfl : x = last := by simpa using hx.symm
        obtain rfl : y = segment := by simpa using hy.symm
        exact hm

theorem applyDelta_foldl_pushNormalized {segments out : List BlobDeltaSegment} {a b : List UInt8}
    (hout : applyDelta base out = some a) (hsegments : applyDelta base segments = some b) :
    applyDelta base (segments.foldl pushNormalized out) = some (a ++ b) := by
  induction segments generalizing out a b with
  | nil =>
    obtain rfl : b = [] := by simpa using hsegments.symm
    simpa using hout
  | cons x rest ih =>
    obtain ⟨first, more, hfirst, hmore, rfl⟩ := applyDelta_cons_eq_some.mp hsegments
    rw [List.foldl_cons, ← List.append_assoc]
    exact ih (applyDelta_pushNormalized hout hfirst) hmore

theorem normalized_foldl_pushNormalized (segments : List BlobDeltaSegment)
    {out : List BlobDeltaSegment} (h : Normalized out) :
    Normalized (segments.foldl pushNormalized out) := by
  induction segments generalizing out with
  | nil => exact h
  | cons x rest ih => exact ih (normalized_pushNormalized h x)

theorem applyDelta_normalizeDeltaSegments {segments : List BlobDeltaSegment} {bytes : List UInt8}
    (h : applyDelta base segments = some bytes) :
    applyDelta base (normalizeDeltaSegments segments) = some bytes :=
  applyDelta_foldl_pushNormalized (applyDelta_nil) h

theorem normalized_normalizeDeltaSegments (segments : List BlobDeltaSegment) :
    Normalized (normalizeDeltaSegments segments) :=
  normalized_foldl_pushNormalized segments normalized_nil

end Normalize

section Splice

/-- The program staged for a splice is defined, spells the spliced bytes, and is in normal
form. Over chunks that hold the base in order, the store's reconstruction returns those bytes. -/
theorem spliceDeltaSegments_correct {segments : List BlobDeltaSegment} {target : List UInt8}
    (happly : applyDelta base segments = some target) {offset deleteLen : ℕ}
    (hsplice : offset + deleteLen ≤ target.length) (inserted : List UInt8) :
    ∃ next, spliceDeltaSegments segments target.length offset deleteLen inserted = some next ∧
      applyDelta base next =
        some (target.take offset ++ inserted ++ target.drop (offset + deleteLen)) ∧
      Normalized next := by
  obtain ⟨pre, hpre, hpreBytes⟩ :=
    sliceDeltaSegments_eq_some happly (Nat.zero_le offset) (by omega)
  obtain ⟨suffix, hsuffix, hsuffixBytes⟩ := sliceDeltaSegments_eq_some happly hsplice le_rfl
  rw [window_zero] at hpreBytes
  rw [window_length] at hsuffixBytes
  have hmiddle : applyDelta base
      (if inserted.length ≠ 0 then pre ++ [.insert inserted] else pre) =
        some (target.take offset ++ inserted) := by
    split_ifs with hins
    · exact applyDelta_append hpreBytes (applyDelta_singleton rfl)
    · obtain rfl : inserted = [] := List.eq_nil_of_length_eq_zero (not_not.mp hins)
      rwa [List.append_nil]
  refine ⟨_, ?_, applyDelta_normalizeDeltaSegments (applyDelta_append hmiddle hsuffixBytes),
    normalized_normalizeDeltaSegments _⟩
  simp only [spliceDeltaSegments, hpre, hsuffix, Option.bind_eq_bind, Option.bind_some,
    Option.pure_def]

end Splice

section Chunks

/-- Chunks that hold a base in order from position `start`: each chunk starts where the one
before it ends. -/
inductive ChunksFrom : ℕ → List DecodedBlobChunk → Prop
  | nil (start : ℕ) : ChunksFrom start []
  | cons {start : ℕ} {chunk : DecodedBlobChunk} {rest : List DecodedBlobChunk}
      (hstart : chunk.rangeStart = start) (hrest : ChunksFrom chunk.rangeEnd rest) :
      ChunksFrom start (chunk :: rest)

/-- The bytes a list of chunks holds. -/
def chunkBytes (chunks : List DecodedBlobChunk) : List UInt8 :=
  (chunks.map DecodedBlobChunk.bytes).flatten

/-- Reading `start..stop` across chunks that start at `position` reads the window of their
bytes. -/
theorem copyFromChunks_eq_window {position : ℕ} {chunks : List DecodedBlobChunk}
    (h : ChunksFrom position chunks) (start stop : ℕ)
    (hstop : stop ≤ position + (chunkBytes chunks).length) :
    copyFromChunks start stop chunks =
      window (chunkBytes chunks) (start - position) (stop - position) := by
  induction h with
  | nil => simp [copyFromChunks, chunkBytes]
  | @cons position chunk rest hstart hrest ih =>
    simp only [chunkBytes, List.map_cons, List.flatten_cons, List.length_append] at hstop ⊢
    have hend : chunk.rangeEnd = position + chunk.bytes.length := by
      rw [DecodedBlobChunk.rangeEnd, hstart]
    simp only [copyFromChunks]
    rw [hend, hstart, clampedWindow_eq, window_append]
    split_ifs with hreach
    · have hrest : window (rest.map DecodedBlobChunk.bytes).flatten
          (start - position - chunk.bytes.length) (stop - position - chunk.bytes.length) = [] :=
        window_of_le (by omega)
      rw [hrest, List.append_nil]
    · rw [ih (by rw [hend]; simp only [chunkBytes]; omega), hend, Nat.sub_sub, Nat.sub_sub]
      rfl

variable {chunks : List DecodedBlobChunk} (hchunks : ChunksFrom 0 chunks)
include hchunks

theorem appendBlobRangeFromChunks_eq_ok (out : List UInt8) (deltaHash : BlobId)
    {offset length : ℕ} (hrange : offset + length ≤ (chunkBytes chunks).length) :
    appendBlobRangeFromChunks out deltaHash (chunkBytes chunks).length offset length chunks =
      .ok (out ++ window (chunkBytes chunks) offset (offset + length)) := by
  have hcopy := copyFromChunks_eq_window hchunks offset (offset + length) (by omega)
  simp only [Nat.sub_zero] at hcopy
  rw [appendBlobRangeFromChunks]
  dsimp only
  rw [if_neg (by omega)]
  split_ifs with hzero hlen
  · rw [← hzero, window_of_le le_rfl, List.append_nil]
  · rw [hcopy, length_window] at hlen
    omega
  · rw [hcopy]

/-- The segment loop over chunks appends the bytes of the program, as long as they fit the
declared size. -/
theorem applySegmentsFromChunks_eq_ok (blobHash : BlobId) {expectedSize : ℕ}
    {segments : List BlobDeltaSegment} {bytes : List UInt8}
    (h : applyDelta (chunkBytes chunks) segments = some bytes) (out : List UInt8)
    (hsize : out.length + bytes.length ≤ expectedSize) :
    applySegmentsFromChunks blobHash expectedSize (chunkBytes chunks).length chunks out segments =
      .ok (out ++ bytes) := by
  induction segments generalizing out bytes with
  | nil =>
    obtain rfl : bytes = [] := by simpa using h.symm
    rw [applySegmentsFromChunks, List.append_nil]
  | cons segment rest ih =>
    obtain ⟨first, more, hfirst, hmore, rfl⟩ := applyDelta_cons_eq_some.mp h
    have hfits : ¬(out ++ first).length > expectedSize := by
      simp only [List.length_append] at hsize ⊢
      omega
    have hrest := ih hmore (out ++ first) (by simp only [List.length_append] at hsize ⊢; omega)
    rw [← List.append_assoc]
    cases segment with
    | copy offset length =>
      simp only [segmentBytes] at hfirst
      split_ifs at hfirst with hrange
      cases hfirst
      simp only [applySegmentsFromChunks, appendBlobRangeFromChunks_eq_ok hchunks out blobHash hrange,
        bind, Except.bind, if_neg hfits, hrest]
    | insert inserted =>
      cases hfirst
      simp only [applySegmentsFromChunks, bind, Except.bind, pure, Except.pure, if_neg hfits, hrest]

/-- Over chunks that hold the base in order, `apply_flat_delta_from_chunks` returns the bytes
the program spells, under their size and content address. -/
theorem applyFlatDeltaFromChunks_eq_ok (fromContent : List UInt8 → BlobId)
    {segments : List BlobDeltaSegment} {bytes : List UInt8}
    (h : applyDelta (chunkBytes chunks) segments = some bytes) :
    applyFlatDeltaFromChunks fromContent (fromContent bytes) bytes.length
      (chunkBytes chunks).length segments chunks = .ok bytes := by
  rw [applyFlatDeltaFromChunks,
    applySegmentsFromChunks_eq_ok hchunks (fromContent bytes) h [] (by simp), List.nil_append]
  simp [bind, Except.bind, pure, Except.pure]

end Chunks

section Staging

/-- The program staged for a splice is defined, normalized, spells the spliced bytes over the
base, and `apply_flat_delta_from_chunks` reads it back from any chunking of the base. -/
theorem flatDeltaSplice_correct {segments : List BlobDeltaSegment} {target : List UInt8}
    (happly : applyDelta base segments = some target) {offset deleteLen : ℕ}
    (hsplice : offset + deleteLen ≤ target.length) (inserted : List UInt8) :
    ∃ next, spliceDeltaSegments segments target.length offset deleteLen inserted = some next ∧
      applyDelta base next =
        some (target.take offset ++ inserted ++ target.drop (offset + deleteLen)) ∧
      Normalized next ∧
      ∀ (fromContent : List UInt8 → BlobId) (chunks : List DecodedBlobChunk),
        ChunksFrom 0 chunks → chunkBytes chunks = base →
        applyFlatDeltaFromChunks fromContent
          (fromContent (target.take offset ++ inserted ++ target.drop (offset + deleteLen)))
          (target.take offset ++ inserted ++ target.drop (offset + deleteLen)).length
          base.length next chunks =
        .ok (target.take offset ++ inserted ++ target.drop (offset + deleteLen)) := by
  obtain ⟨next, hnext, hbytes, hnormal⟩ := spliceDeltaSegments_correct happly hsplice inserted
  refine ⟨next, hnext, hbytes, hnormal, ?_⟩
  intro fromContent chunks hchunks hbase
  subst hbase
  exact applyFlatDeltaFromChunks_eq_ok hchunks fromContent hbytes

theorem flatDeltaSplice_correct_sample :
    applyDelta [1, 2, 3, 4, 5] [.copy 0 5] = some [1, 2, 3, 4, 5] ∧
    1 + 2 ≤ [(1 : UInt8), 2, 3, 4, 5].length ∧
    ∃ next, spliceDeltaSegments [.copy 0 5] [(1 : UInt8), 2, 3, 4, 5].length 1 2 [9] = some next ∧
      applyDelta [1, 2, 3, 4, 5] next =
        some ([(1 : UInt8), 2, 3, 4, 5].take 1 ++ [9] ++ [(1 : UInt8), 2, 3, 4, 5].drop (1 + 2)) ∧
      Normalized next ∧
      ∀ (fromContent : List UInt8 → BlobId) (chunks : List DecodedBlobChunk),
        ChunksFrom 0 chunks → chunkBytes chunks = [1, 2, 3, 4, 5] →
        applyFlatDeltaFromChunks fromContent
          (fromContent ([(1 : UInt8), 2, 3, 4, 5].take 1 ++ [9] ++ [(1 : UInt8), 2, 3, 4, 5].drop (1 + 2)))
          ([(1 : UInt8), 2, 3, 4, 5].take 1 ++ [9] ++ [(1 : UInt8), 2, 3, 4, 5].drop (1 + 2)).length
          [(1 : UInt8), 2, 3, 4, 5].length next chunks =
        .ok ([(1 : UInt8), 2, 3, 4, 5].take 1 ++ [9] ++ [(1 : UInt8), 2, 3, 4, 5].drop (1 + 2)) :=
  ⟨by decide, by decide, flatDeltaSplice_correct (by decide) (by decide) [9]⟩

end Staging

end Lix.BinaryCas
