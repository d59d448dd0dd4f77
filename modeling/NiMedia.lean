import NiMedia.Lib.Bytes
import NiMedia.Lib.Floats
import NiMedia.Lib.Loop
import NiMedia.Lib.Machine
import NiMedia.Lib.Simulation
import NiMedia.Pcm.Copy
import NiMedia.Pcm.Iterator
import NiMedia.Pcm.FloatBuffer
import NiMedia.Pcm.FormatString
import NiMedia.Pcm.Sample
import NiMedia.Pcm.SampleArray
import NiMedia.Pcm.SinglePass
import NiMedia.Iostreams.ContainerSink
import NiMedia.Iostreams.Cursor
import NiMedia.Iostreams.FileView
import NiMedia.Audio.Aligned
import NiMedia.Audio.Closing
import NiMedia.Audio.Extraction
import NiMedia.Audio.Arithmetic
import NiMedia.Audio.Extent
import NiMedia.Audio.Ieee80
import NiMedia.Audio.Ivectorstream
import NiMedia.Wav.Expressible
import NiMedia.Wav.Insertion
import NiMedia.Wav.Metadata
import NiMedia.Wav.Sane
import NiMedia.Aiff.Expressible
import NiMedia.Aiff.Order
import NiMedia.Aiff.Sane
import NiMedia.Flac.Delivery
import NiMedia.Flac.Lossless
import NiMedia.Flac.Seeking
import NiMedia.Ogg.Reading
import NiMedia.Audio.Positions
import NiMedia.Audio.SeekAssertion
import NiMedia.Os.AvAssetReader
import NiMedia.Os.CoreAudio
import NiMedia.Os.Instances
import NiMedia.Os.FrameReading
import NiMedia.Os.TrackReader
import NiMedia.Os.AssetReading
import NiMedia.Audio.SourceStream
import NiMedia.Audio.FileStream
import NiMedia.Audio.CopiedStream
import NiMedia.Audio.SinkStream
import NiMedia.Audio.StreamRoundTrip
import NiMedia.Ogg.Stream
import NiMedia.Flac.Stream
import NiMedia.Os.CoreAudioStream
import NiMedia.Os.ByteStream
import NiMedia.Audio.DecoderCallbacks
import NiMedia.Audio.Ieee80Exact
import NiMedia.Audio.Logarithm
import NiMedia.Aiff.SampleRate
import NiMedia.Os.MediaFoundationStream
import NiMedia.Os.AssetStream
