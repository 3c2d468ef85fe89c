import Rkvc.Core.Fallback
import Rkvc.Core.Blame
import Rkvc.Core.Completion
import Rkvc.Core.Determinism
import Rkvc.Core.QueueRuns
import Rkvc.Core.Discovery
import Rkvc.Core.Download
import Rkvc.Core.ModelStore
import Rkvc.Core.Negotiation
import Rkvc.H264h265.Clamp
import Rkvc.H264h265.Sniff
import Rkvc.Pspack.Safety
import Rkvc.Pspack.Sniff
import Rkvc.Pspack.Admission
import Rkvc.Pspack.Chunks
import Rkvc.Mlvc.Rungs
import Rkvc.Mlvc.Bucket
import Rkvc.Mlvc.Polls
import Rkvc.Mlvc.Rans.Safety
import Rkvc.Mlvc.Rans.Bypass
import Rkvc.Mlvc.Rans.Values
import Rkvc.Mlvc.Records
import Rkvc.Mlvc.QppDiff
import Rkvc.Mlvc.Gop
import Rkvc.Mlvc.Playback
import Rkvc.Onnx.QptabFile
import Rkvc.Sr.Phase
import Rkvc.Video.Inside
import Rkvc.Video.Planes
import Rkvc.Onnx.Compensated
import Rkvc.Mlvc.Scales
import Rkvc.Onnx.Rewritten
import Rkvc.Mlvc.Rans.Layout
import Rkvc.Mlvc.Rans.Reciprocal
import Rkvc.Mlvc.Rans.MulHigh
import Rkvc.Core.Sha256
import Rkvc.Sr.Bicubic
import Rkvc.Mlvc.Neon
import Rkvc.Mlvc.DepthToSpace
import Rkvc.Mlvc.PmfJson
import Rkvc.Mlvc.Rans.Buffer
import Rkvc.Pspack.Enumerate
import Rkvc.Mlvc.Fp16Value
import Rkvc.Mlvc.Splice
import Rkvc.Sr.UpscaleNode
import Rkvc.H264h265.DecoderEnds
import Rkvc.H264h265.DecoderRuns
import Rkvc.H264h265.EncoderRuns
import Rkvc.H264h265.EncoderEnds
