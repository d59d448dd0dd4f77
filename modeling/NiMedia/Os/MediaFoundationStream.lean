/-
  Streams over files that WMF decodes
  (`audio/os/win/media_foundation_source.h`: `read` and `seek`).

  A track is of frames of bytes, in blocks of at most 1024 of them.  The source
  plays as many frames as are declared, with silence behind the last one of the
  track; it is the only one of its process, and its reader sets its position.

  * `mediaFoundationSource_actsAsCursor`: the source acts as a cursor over these
    frames.
  * `mediaFoundation_streams`: streams over the source, and copies of them, are
    those of these frames, if seeks go forwards from the beginning or the end.
-/
import NiMedia.Audio.CopiedStream
import NiMedia.Os.FrameReading
import NiMedia.Os.FrameStream

namespace NiMedia

open Bytes Words SourceStream

namespace MediaFoundation

/-! ## The source -/

/-- `media_foundation_source`, for a client with a buffer of bytes. -/
structure MediaFoundationSource {F : ℕ} (W : Track (Frame F)) where
  state : Source (Frame F)

section
variable {F : ℕ} {W : Track (Frame F)}

/-- A buffer takes a count of zero as it takes -1. -/
instance : NiMedia.Source (MediaFoundationSource W) where
  read n s :=
    let ((count, dst), state) := MediaFoundation.read W W.minValue n (fun _ => 0) s.state
    (deliver (frameBytes (count / W.frameSize) dst), ⟨state⟩)
  seek off way s :=
    let (pos, state) := MediaFoundation.seek W W.minValue true off way s.state
    (pos, ⟨state⟩)

/-- Frame `i` of what the source plays. -/
def Track.played (W : Track (Frame F)) (i : ℕ) : Frame F := W.frame (i + W.readOffset)

/-- The bytes that the source plays. -/
def Track.bytes (W : Track (Frame F)) : List UInt8 := frameBytes W.numFrames W.played

/-- The source stands at a frame of the cursor. -/
structure StandsAt (W : Track (Frame F)) (c : Cursor) (s : MediaFoundationSource W) : Prop where
  bytes : c.bytes = W.bytes
  pos : c.pos = s.state.nominalPos * F
  ok : Ok W s.state

variable {c : Cursor} {s : MediaFoundationSource W}

theorem StandsAt.length (h : StandsAt W c s) : c.bytes.length = W.numFrames * F := by
  rw [h.bytes]
  exact length_frameBytes _ _

/-! ### Reads -/

/-- The frames that a read delivers are next. -/
theorem StandsAt.next (h : StandsAt W c s) (hF : W.frameSize = F) (N : ℕ) :
    c.next (N * F) =
      frameBytes (readCount W (N * F) s.state) fun i => W.played (s.state.nominalPos + i) := by
  have hle := h.ok.nominalPos_le
  have hFpos : 0 < F := hF ▸ W.frameSize_pos
  have hcount : readCount W (N * F) s.state = min N (W.numFrames - s.state.nominalPos) := by
    rw [readCount, hF, Nat.mul_div_cancel _ hFpos]
    omega
  have hmin : min (N * F) (c.bytes.length - c.pos) = readCount W (N * F) s.state * F := by
    rw [hcount, h.length, h.pos, ← Nat.sub_mul, Nat.mul_min_mul_right]
  rw [Cursor.next, ← slice_min_left, hmin, h.pos, h.bytes]
  exact slice_frameBytes (by omega)

theorem StandsAt.read (h : StandsAt W c s) (hF : W.frameSize = F)
    (hsmall : ∀ b ∈ W.blocks, b.length ≤ defaultBlockSize) {n : ℕ} (hn : F ∣ n) :
    (Source.read n s).1 = (c.read n).1 ∧ StandsAt W (c.read n).2 (Source.read n s).2 := by
  obtain ⟨N, rfl⟩ := hn
  rw [Nat.mul_comm]
  have hFpos : 0 < F := hF ▸ W.frameSize_pos
  have hnext := h.next hF N
  obtain ⟨hread, hnominal, hok⟩ := read_spec h.ok (N * F) (fun _ => 0)
    fun _ => moreBlocks_of_le hsmall h.ok
  have hframes : frameBytes (readCount W (N * F) s.state)
      (delivered W s.state.adjustedPos (readCount W (N * F) s.state) 0 fun _ => 0) =
        c.next (N * F) := by
    rw [hnext]
    refine frameBytes_congr fun i hi => ?_
    have hin : 0 ≤ i ∧ i < 0 + readCount W (N * F) s.state := by omega
    rw [delivered, if_pos hin, h.ok.adjustedPos, Track.played]
    congr 1
    omega
  have hcount : readCount W (N * F) s.state * W.frameSize / W.frameSize =
      readCount W (N * F) s.state := Nat.mul_div_cancel _ W.frameSize_pos
  simp only [Source.read, hread, hcount, hframes]
  refine ⟨rfl, h.bytes, ?_, hok⟩
  rw [hnominal, Cursor.pos_read, hnext, length_frameBytes, h.pos, Nat.add_mul]

/-! ### Seeks -/

/-- Any seek sets the position, or the source is there. -/
theorem Ok.seek {s : Source (Frame F)} (hs : Ok W s) (off : ℤ) (way : SeekDir) :
    Ok W (MediaFoundation.seek W W.minValue true off way s).2 := by
  by_cases hstay : s.nominalPos = seekNominal W off way s
  · have hsame : (MediaFoundation.seek W W.minValue true off way s).2 = s := by
      simp only [MediaFoundation.seek, if_neg (not_not.2 hstay)]
      rfl
    rwa [hsame]
  · have hmoved : (MediaFoundation.seek W W.minValue true off way s).2 =
        sought W (seekNominal W off way s) := by
      simp only [MediaFoundation.seek, if_pos hstay]
      rfl
    rw [hmoved]
    exact ok_sought seekNominal_le

theorem StandsAt.seek (h : StandsAt W c s) (hF : W.frameSize = F) {off : ℤ} {way : SeekDir}
    (hfits : fits 0 c (.seek off way)) (hdvd : F ∣ c.sought off way)
    (hreach : AsksPosition off way ∨ forwards c way (c.asked off way)) :
    (Device.seek off way s).1 = (c.seek off way).1 ∧
      StandsAt W (c.seek off way).2 (Device.seek off way s).2 := by
  have hlen : c.bytes.length = W.numFrames * W.frameSize := by
    rw [hF]
    exact h.length
  have hpos : (c.pos : ℤ) = s.state.nominalPos * W.frameSize := by
    rw [hF, h.pos, Nat.cast_mul]
  have hsought := frameSeek_sought W.frameSize_pos hlen hpos hfits (by rwa [hF]) hreach
  rw [← seekNominal_cast, hF] at hsought
  have hnominal : c.sought off way = seekNominal W off way s.state * F := by
    exact_mod_cast hsought.symm
  have hresult : (MediaFoundation.seek W W.minValue true off way s.state).1 = c.sought off way := by
    rw [seek_result, wrap_seekNominal, hF]
    exact hsought
  simp only [Device.seek]
  refine ⟨hresult, h.bytes, ?_, h.ok.seek off way⟩
  rw [seek_nominalPos]
  exact hnominal

/-- **The source** acts as a cursor over the frames that it plays. -/
theorem mediaFoundationSource_actsAsCursor (hF : W.frameSize = F)
    (hsmall : ∀ b ∈ W.blocks, b.length ≤ defaultBlockSize) :
    ActsAsCursor F 0 forwards (StandsAt W) where
  reach := reach_forwards
  aligned h := by
    rw [h.pos, h.length]
    exact ⟨Nat.dvd_mul_left _ _, Nat.dvd_mul_left _ _⟩
  read n h hn := ⟨n, le_rfl, hn.frames, hn.pos, h.read hF hsmall hn.frames⟩
  seek _ _ h hfits hdvd hreach := h.seek hF hfits hdvd hreach

/-! ## Streams -/

/-- **Streams over Media Foundation.**  Over a track in blocks of at most 1024
    frames, a stream answers any run of calls as one over the declared frames does,
    which are those of the track behind its read offset and then silence, if each
    seek is for the position, or forwards from the beginning or the end; and it is
    copied with all of them. -/
theorem mediaFoundation_streams (h : Host) (order : EvaluationOrder) {info : StreamInfo}
    (hinfo : info.bytesPerFrame = F) (hchannels : 1 ≤ info.numChannels)
    (hle : info.numChannels ≤ 255) (hF : W.frameSize = F)
    (hsmall : ∀ b ∈ W.blocks, b.length ≤ defaultBlockSize) :
    StreamsOverTo forwards h order F 0 (info.bytesPerBuffer framesPerBuffer)
        (⟨opened W⟩ : MediaFoundationSource W) info W.bytes ∧
      CopiesOver forwards h order F 0 (info.bytesPerBuffer framesPerBuffer)
        (⟨opened W⟩ : MediaFoundationSource W) info W.bytes := by
  subst hinfo
  have hb := buffers_of_channels hchannels hle (mediaFoundationSource_actsAsCursor hF hsmall)
  have hstands : StandsAt W ⟨W.bytes, 0, Nat.zero_le _⟩ ⟨opened W⟩ :=
    ⟨rfl, (Nat.zero_mul _).symm, ok_opened⟩
  have hfits : 0 + W.bytes.length < 2 ^ 63 := by
    have hfits := W.fits
    rw [hF] at hfits
    rw [Nat.zero_add, hstands.length]
    exact hfits
  exact ⟨streamsOverTo h order (c := ⟨W.bytes, 0, Nat.zero_le _⟩) hb hstands rfl hfits,
    copiesOver h order (c := ⟨W.bytes, 0, Nat.zero_le _⟩) hb hstands rfl hfits⟩

end

/-! ### A track -/

/-- A frame of one byte. -/
def monoFrame (b : UInt8) : Frame 1 := ⟨[b], List.length_singleton⟩

def threeBlocks : List (List (Frame 1)) := [[monoFrame 1, monoFrame 2], [monoFrame 3]]

theorem threeBlocks_ne_nil : ∀ b ∈ threeBlocks, b ≠ [] := by
  simp [threeBlocks]

theorem threeBlocks_small : ∀ b ∈ threeBlocks, b.length ≤ defaultBlockSize := by
  simp [threeBlocks, defaultBlockSize]

/-- The first of its three frames is not played. -/
def threeTrack : Track (Frame 1) where
  blocks := threeBlocks
  numFrames := 3
  readOffset := 1
  frameSize := 1
  blocks_ne_nil := threeBlocks_ne_nil
  frameSize_pos := Nat.one_pos
  fits := show 3 < 2 ^ 63 by decide

def monoInfo : StreamInfo := { format := s8 }

/-- Two frames, silence by a seek, and the end. -/
theorem mediaFoundation_streams_three :
    ∃ s s' : SourceStream (MediaFoundationSource threeTrack),
      s.source = ⟨opened threeTrack⟩ ∧
      Machine.Runs (Step (.ofNative .littleEndian) .leftToRight
          (monoInfo.bytesPerBuffer framesPerBuffer)) s
        [.read 2, .seekg (.frameSeekg 1 .beg), .read 2, .tellg, .read 1, .rdstate]
        [.bytes [2, 3], .nothing, .bytes [3, 0], .position 3, .bytes [], .bits true true] s' := by
  obtain ⟨⟨⟨s, hs⟩, hruns⟩, -⟩ := mediaFoundation_streams (.ofNative .littleEndian) .leftToRight
    (show monoInfo.bytesPerFrame = 1 from rfl) le_rfl (by decide) (W := threeTrack) rfl
    threeBlocks_small
  obtain ⟨s', hrun⟩ := (hruns s hs
    [.read 2, .seekg (.frameSeekg 1 .beg), .read 2, .tellg, .read 1, .rdstate]
    ⟨⟨one_dvd _, trivial⟩,
      ⟨fun _ => ⟨⟨by decide, by decide⟩, one_dvd _⟩, fun _ => ⟨SeekDir.noConfusion, by decide⟩⟩,
      ⟨one_dvd _, trivial⟩, ⟨trivial, trivial⟩, ⟨one_dvd _, trivial⟩, ⟨trivial, trivial⟩,
      trivial⟩ _).2 rfl
  exact ⟨s, s', hs.source, hrun⟩

end MediaFoundation

end NiMedia
