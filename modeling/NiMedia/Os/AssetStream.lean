/-
  Streams over an AVAssetReader (`audio/os/ios/avassetreader_source.mm`).

  Of the track nothing is trimmed off, and a reader that starts at a frame hands
  out what is behind it.  The source plays the track, and silence up to the
  declared end.  Each seek makes a new reader, which starts before this end.

  * `assetSource_actsAsCursor`: the source acts as a cursor over what it plays.
  * `asset_streams`: streams over the source, and copies of them, are those of
    what it plays, if seeks go forwards from the beginning to a frame.
-/
import NiMedia.Audio.CopiedStream
import NiMedia.Os.AssetReading
import NiMedia.Os.FrameStream

namespace NiMedia

open Bytes Words SourceStream

namespace AvAssetReader

/-! ## The source -/

/-- `avassetreader_source`, for a client with a buffer. -/
structure AssetSource (A : Asset) where
  impl : Option Impl

/-- A buffer takes a count of zero as it takes -1. -/
instance {A : Asset} : NiMedia.Source (AssetSource A) where
  read n s :=
    let ((count, dst), impl) := AvAssetReader.read A n s.impl
    (deliver (dst.take count.toNat), ⟨impl⟩)
  seek off way s :=
    let (pos, impl) := AvAssetReader.seek A off way s.impl
    (pos, ⟨impl⟩)

/-- An asset whose readers hand out the frames of `pcm`, which are not more than
    are declared. -/
structure Decodes (A : Asset) (pcm : List UInt8) : Prop where
  trim : A.trimOffsetFrames = 0
  numFrames_pos : 1 ≤ A.numFrames
  sampleBuffers : ∀ k < A.numFrames, (A.sampleBuffers k).flatten = pcm.drop (k * A.frameSize)
  frames : A.frameSize ∣ pcm.length
  inside : pcm.length ≤ A.numFrames * A.frameSize

/-- Positions before the end, by seeks forwards from the beginning. -/
def forwardsInside (c : Cursor) (way : SeekDir) (t : ℤ) : Prop :=
  forwards c way t ∧ (t < c.bytes.length ∨ c.bytes.length = 0)

theorem reach_forwardsInside : Reach forwardsInside where
  zero c := ⟨reach_forwards.zero c, by omega⟩
  ahead {c c' way t} h hbytes hpos := by
    obtain ⟨hforwards, hin⟩ := h
    refine ⟨reach_forwards.ahead hforwards hbytes hpos, ?_⟩
    rwa [hbytes]

/-- The source is at a frame of the cursor, and plays what is left of it. -/
structure StandsAt (A : Asset) (pcm : List UInt8) (c : Cursor) (s : AssetSource A) : Prop where
  bytes : c.bytes = A.heard 0 pcm
  plays : ∃ p l left i, s.impl = some i ∧ Plays p left i ∧ c.pos = p * A.frameSize ∧
    left.length = l * A.frameSize ∧ p + l ≤ A.numFrames ∧ c.left = A.heard p left

section
variable {A : Asset} {pcm : List UInt8} {c : Cursor} {s : AssetSource A}

theorem Decodes.length (h : Decodes A pcm) :
    (A.heard 0 pcm).length = A.numFrames * A.frameSize := by
  obtain ⟨l, hl⟩ := h.frames
  rw [Nat.mul_comm] at hl
  have hle := h.inside
  rw [hl] at hle
  have hlN : l ≤ A.numFrames := Nat.le_of_mul_le_mul_right hle A.frameSize_pos
  rw [A.length_heard hl, Nat.sub_zero, Nat.max_eq_right hlN]

theorem StandsAt.length (h : StandsAt A pcm c s) (hdec : Decodes A pcm) :
    c.bytes.length = A.numFrames * A.frameSize := by
  rw [h.bytes]
  exact hdec.length

/-- A new reader. -/
theorem standsAt_createImpl (hdec : Decodes A pcm) {q : ℕ} (hq : q < A.numFrames)
    (hbytes : c.bytes = A.heard 0 pcm) (hpos : c.pos = q * A.frameSize) :
    StandsAt A pcm c ⟨some (createImpl A q)⟩ := by
  have hlt := A.numFrames_lt
  have hstart : A.start q = q := by
    rw [Asset.start, hdec.trim, Nat.add_zero, Nat.add_zero, sizeT_of_lt (by omega)]
    unfold sizeT
    omega
  have htrack : A.track q = pcm.drop (q * A.frameSize) := by
    rw [Asset.track, hstart]
    exact hdec.sampleBuffers q hq
  obtain ⟨l, hl⟩ := hdec.frames
  rw [Nat.mul_comm] at hl
  have hin := hdec.inside
  rw [hl] at hin
  have hlN : l ≤ A.numFrames := Nat.le_of_mul_le_mul_right hin A.frameSize_pos
  have hplays := plays_createImpl (A := A) (k := q) (by rw [hstart]; omega)
  rw [hstart, htrack] at hplays
  refine ⟨hbytes, q, l - q, _, _, rfl, hplays, hpos, ?_, by omega, ?_⟩
  · rw [List.length_drop, hl, Nat.sub_mul]
  · have hdrop := A.heard_drop hl (p := 0) (m := q) (n := q) (by omega)
    rw [Nat.zero_add] at hdrop
    rw [Cursor.left, hbytes, hpos, hdrop]

/-! ### Reads -/

theorem StandsAt.read (h : StandsAt A pcm c s) {n : ℕ} (hn : BufferSize A.frameSize n) :
    (Source.read n s).1 = (c.read n).1 ∧ StandsAt A pcm (c.read n).2 (Source.read n s).2 := by
  obtain ⟨hbytes, p, l, left, i, hsome, hplays, hpos, hl, hin, hheard⟩ := h
  obtain ⟨m, rfl⟩ := hn.frames
  have hint := hn.int
  rw [Nat.mul_comm] at hint ⊢
  have hlt := A.numFrames_lt
  have hleF : left.length < 2 ^ 63 := by
    have hle := Nat.mul_le_mul_right A.frameSize (show l ≤ A.numFrames by omega)
    have hN := A.numFrames_mul_lt
    rw [hl]
    exact lt_of_le_of_lt hle (by exact_mod_cast hN)
  obtain ⟨i', hplays', -, hread⟩ := hplays.hear (m := m) hl hleF (by omega) (by omega)
    fun e he he' => framesRead_eq he he' le_rfl (.inl hin)
  have hnext : (A.heard p left).take (m * A.frameSize) = c.next (m * A.frameSize) := by
    rw [← hheard, Cursor.next_eq_take]
  simp only [Source.read, hsome, hread, AvAssetReader.hear, hnext, Int.toNat_natCast,
    List.take_left]
  refine ⟨rfl, hbytes, _, l - m, _, _, rfl, hplays', ?_, ?_, by omega, ?_⟩
  · rw [Cursor.pos_read, ← hnext, A.length_take_heard hl, hpos, Nat.add_mul]
  · rw [List.length_drop, hl, Nat.sub_mul]
  · rw [Cursor.left_read, hheard, A.heard_drop hl rfl]

/-! ### Seeks -/

/-- Asked for its position, the source keeps its reader. -/
theorem StandsAt.seek_stays (h : StandsAt A pcm c s) (hdec : Decodes A pcm) {off : ℤ}
    {way : SeekDir} (hasks : AsksPosition off way) :
    (Device.seek off way s).1 = (c.seek off way).1 ∧
      StandsAt A pcm (c.seek off way).2 (Device.seek off way s).2 := by
  have hlen := h.length hdec
  obtain ⟨hbytes, p, l, left, i, hsome, hplays, hpos, hl, hin, hheard⟩ := h
  have hlt : A.numFrames * A.frameSize < 2 ^ 63 := by exact_mod_cast A.numFrames_mul_lt
  have hle := c.pos_le
  have hposz : (c.pos : ℤ) = i.framePos * A.frameSize := by
    rw [hplays.framePos, hpos, Nat.cast_mul]
  have hwrap : wrap 64 (c.pos : ℤ) = c.pos := wrap_of_range (by omega) (by omega)
  have hsame : c.sought off way = c.pos := hasks.sought c
  have hstep : AvAssetReader.seek A off way s.impl = ((c.pos : ℤ), s.impl) := by
    have hstays : off = 0 ∧ way = .cur := hasks
    rw [hposz] at hwrap
    rw [hsome, AvAssetReader.seek, if_pos hstays, hwrap, hposz]
  simp only [Device.seek, hstep]
  refine ⟨congrArg Nat.cast hsame.symm, hbytes, p, l, left, i, hsome, hplays, ?_, hl, hin, ?_⟩
  · rw [Cursor.pos_seek, hsame, hpos]
  · rw [← hheard, Cursor.left, Cursor.left, Cursor.bytes_seek, Cursor.pos_seek, hsame]

/-- Any other seek makes a reader, which starts at the frame. -/
theorem StandsAt.seek_starts (h : StandsAt A pcm c s) (hdec : Decodes A pcm) {off : ℤ}
    {way : SeekDir} (hfits : fits 0 c (.seek off way)) (hdvd : A.frameSize ∣ c.sought off way)
    (hasks : ¬AsksPosition off way) (hreach : forwardsInside c way (c.asked off way)) :
    (Device.seek off way s).1 = (c.seek off way).1 ∧
      StandsAt A pcm (c.seek off way).2 (Device.seek off way s).2 := by
  have hlen := h.length hdec
  obtain ⟨hbytes, p, l, left, i, hsome, hplays, hpos, hl, hin, hheard⟩ := h
  have hlt : A.numFrames * A.frameSize < 2 ^ 63 := by exact_mod_cast A.numFrames_mul_lt
  have hposz : (c.pos : ℤ) = i.framePos * A.frameSize := by
    rw [hplays.framePos, hpos, Nat.cast_mul]
  have hle : c.sought off way ≤ c.bytes.length := Nat.min_le_right _ _
  have hwrap : wrap 64 (c.sought off way : ℤ) = c.sought off way :=
    wrap_of_range (by omega) (by omega)
  obtain ⟨hforwards, hinside⟩ := hreach
  have hsought := frameSeek_sought A.frameSize_pos hlen hposz hfits hdvd (.inr hforwards)
  have h0 : 0 ≤ absolutePosition i.framePos 0 A.numFrames (frameOffset off A.frameSize) way :=
    le_absolutePosition (Int.natCast_nonneg _)
  obtain ⟨q, hq⟩ := Int.eq_ofNat_of_zero_le h0
  rw [hq] at hsought
  have hqF : c.sought off way = q * A.frameSize := by exact_mod_cast hsought.symm
  have hqlt : q < A.numFrames := by
    have hNpos := Nat.mul_pos hdec.numFrames_pos A.frameSize_pos
    have hbefore : c.sought off way < A.numFrames * A.frameSize := by
      rcases hinside with hlt | hzero
      · unfold Cursor.asked at hlt
        unfold Cursor.sought
        omega
      · omega
    rw [hqF] at hbefore
    exact Nat.lt_of_mul_lt_mul_right hbefore
  have hnat : ((q : ℤ) % 2 ^ 64).toNat = q := by
    have hN := A.numFrames_lt
    omega
  have hstep : AvAssetReader.seek A off way s.impl =
      ((c.sought off way : ℤ), some (createImpl A q)) := by
    rw [← hsought] at hwrap ⊢
    have hmoves : ¬(off = 0 ∧ way = .cur) := hasks
    simp only [hsome, AvAssetReader.seek, if_neg hmoves, hq, hnat]
    rw [hwrap]
  simp only [Device.seek, hstep]
  exact ⟨rfl, standsAt_createImpl hdec hqlt hbytes hqF⟩

theorem StandsAt.seek (h : StandsAt A pcm c s) (hdec : Decodes A pcm) {off : ℤ} {way : SeekDir}
    (hfits : fits 0 c (.seek off way)) (hdvd : A.frameSize ∣ c.sought off way)
    (hreach : AsksPosition off way ∨ forwardsInside c way (c.asked off way)) :
    (Device.seek off way s).1 = (c.seek off way).1 ∧
      StandsAt A pcm (c.seek off way).2 (Device.seek off way s).2 := by
  by_cases hasks : AsksPosition off way
  · exact h.seek_stays hdec hasks
  · exact h.seek_starts hdec hfits hdvd hasks (hreach.resolve_left hasks)

/-- **The source** acts as a cursor over what it plays. -/
theorem assetSource_actsAsCursor (hdec : Decodes A pcm) :
    ActsAsCursor A.frameSize 0 forwardsInside (StandsAt A pcm) where
  reach := reach_forwardsInside
  aligned h := by
    rw [h.length hdec]
    obtain ⟨-, p, l, left, i, -, -, hpos, -⟩ := h
    rw [hpos]
    exact ⟨Nat.dvd_mul_left _ _, Nat.dvd_mul_left _ _⟩
  read n h hn := ⟨n, le_rfl, hn.frames, hn.pos, h.read hn⟩
  seek _ _ h hfits hdvd hreach := h.seek hdec hfits hdvd hreach

/-! ## Streams -/

/-- **Streams over an AVAssetReader.**  Over a track of which nothing is trimmed
    off, and which does not go beyond its declared end, a stream answers any run of
    calls as one over the track and the silence behind it does, if each seek is for
    the position, or forwards from the beginning to a frame before the end; and it
    is copied with all of it. -/
theorem asset_streams (h : Host) (order : EvaluationOrder) {info : StreamInfo}
    (hinfo : info.bytesPerFrame = A.frameSize) (hchannels : 1 ≤ info.numChannels)
    (hle : info.numChannels ≤ 255) (hdec : Decodes A pcm) :
    StreamsOverTo forwardsInside h order A.frameSize 0 (info.bytesPerBuffer framesPerBuffer)
        (⟨some (createImpl A 0)⟩ : AssetSource A) info (A.heard 0 pcm) ∧
      CopiesOver forwardsInside h order A.frameSize 0 (info.bytesPerBuffer framesPerBuffer)
        (⟨some (createImpl A 0)⟩ : AssetSource A) info (A.heard 0 pcm) := by
  have hacts := assetSource_actsAsCursor hdec
  rw [← hinfo] at hacts
  have hb := buffers_of_channels hchannels hle hacts
  rw [hinfo] at hb
  have hstands : StandsAt A pcm ⟨A.heard 0 pcm, 0, Nat.zero_le _⟩ ⟨some (createImpl A 0)⟩ :=
    standsAt_createImpl hdec hdec.numFrames_pos rfl (Nat.zero_mul _).symm
  have hfits : 0 + (A.heard 0 pcm).length < 2 ^ 63 := by
    rw [Nat.zero_add, hdec.length]
    exact_mod_cast A.numFrames_mul_lt
  exact ⟨streamsOverTo h order (c := ⟨A.heard 0 pcm, 0, Nat.zero_le _⟩) hb hstands rfl hfits,
    copiesOver h order (c := ⟨A.heard 0 pcm, 0, Nat.zero_le _⟩) hb hstands rfl hfits⟩

end

/-! ### A track -/

theorem f32le_mem : (⟨.floatingPoint, ._32bit, .littleEndian⟩ : CompiletimeFormat) ∈
    compiletimeFormats :=
  (mem_compiletimeFormats _).2 (.inr (.inl rfl))

/-- What a source of mono makes of its track. -/
def floatInfo : StreamInfo where
  format := .ofTag ⟨.floatingPoint, ._32bit, .littleEndian⟩ f32le_mem

def twoFrames : List UInt8 := [1, 2, 3, 4, 5, 6, 7, 8]

/-- Two frames, of which a third is declared. -/
def padded : Asset where
  duration := 3
  frameSize := 4
  trimOffsetFrames := 0
  sampleBuffers start := [twoFrames.drop (start * 4)]
  frameSize_pos := show 1 ≤ 4 by decide
  trim := overlong.trim
  fits := by decide

theorem padded_decodes : Decodes padded twoFrames where
  trim := rfl
  numFrames_pos := by decide
  sampleBuffers k _ := List.flatten_singleton
  frames := by decide
  inside := by decide

/-- The first frame, the last one by a seek, silence, and the end. -/
theorem asset_streams_padded :
    ∃ s s' : SourceStream (AssetSource padded),
      s.source = ⟨some (createImpl padded 0)⟩ ∧
      Machine.Runs (Step (.ofNative .littleEndian) .leftToRight
          (floatInfo.bytesPerBuffer framesPerBuffer)) s
        [.read 4, .seekg (.frameSeekg 1 .beg), .read 8, .tellg, .read 4, .rdstate]
        [.bytes [1, 2, 3, 4], .nothing, .bytes [5, 6, 7, 8, 0, 0, 0, 0], .position 12, .bytes [],
          .bits true true] s' := by
  obtain ⟨⟨⟨s, hs⟩, hruns⟩, -⟩ := asset_streams (.ofNative .littleEndian) .leftToRight
    (show floatInfo.bytesPerFrame = 4 from rfl) le_rfl (by decide) padded_decodes
  obtain ⟨s', hrun⟩ := (hruns s hs
    [.read 4, .seekg (.frameSeekg 1 .beg), .read 8, .tellg, .read 4, .rdstate]
    ⟨⟨show 4 ∣ 4 by decide, trivial⟩,
      ⟨fun _ => ⟨⟨by decide, by decide⟩, by decide +kernel⟩,
        fun _ => ⟨⟨SeekDir.noConfusion, by decide⟩, .inl (by decide)⟩⟩,
      ⟨show 4 ∣ 8 by decide, trivial⟩, ⟨trivial, trivial⟩, ⟨show 4 ∣ 4 by decide, trivial⟩,
      ⟨trivial, trivial⟩, trivial⟩ _).2 rfl
  exact ⟨s, s', hs.source, hrun⟩

end AvAssetReader

end NiMedia
