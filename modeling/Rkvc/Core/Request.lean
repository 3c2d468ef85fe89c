import Rkvc.Core.Spec

/-!
# Requests and device capabilities

`rkvc::Request`: one media request, intent only; `validate` is the check every
entry point makes first.
-/

namespace Rkvc
set_option autoImplicit false

inductive Operation where
  | transcode | decode | encode | upscale
  deriving DecidableEq, Repr

inductive Codec where
  | auto | h264 | hevc | av1 | mlvc
  deriving DecidableEq, Repr

inductive Policy where
  | realtime | balanced | quality | offline
  deriving DecidableEq, Repr

inductive EndpointKind where
  | file | frameSink | stream
  deriving DecidableEq, Repr

structure Quality where
  bitrateBps : Int := 0
  qp : Int := -1
  gopSize : Nat := 0
  fps : Nat := 0
  ltrPeriod : Nat := 0
  ltrStartIdx : Nat := 0
  deriving DecidableEq, Repr

structure Endpoint where
  kind : EndpointKind := .frameSink
  uri : String := ""
  deriving DecidableEq, Repr

structure Request where
  operation : Operation := .encode
  codec : Codec := .auto
  policy : Policy := .balanced
  quality : Quality := {}
  input : Endpoint := {}
  output : Endpoint := {}
  inputSpec : Spec := {}
  outputSpec : Spec := {}
  width : Nat := 0
  height : Nat := 0
  modelId : String := ""
  queueCapacity : Nat := 4
  deriving DecidableEq, Repr

structure DeviceCaps where
  mppEncode : Bool := false
  mppDecode : Bool := false
  rga : Bool := false
  rknn : Bool := false
  npuCores : Nat := 0
  soc : String := ""
  deriving DecidableEq, Repr

def validate (r : Request) : Result Unit :=
  let reject reason := Result.reject .invalid "validate" "request" reason
  if r.queueCapacity = 0 then reject "queue capacity must be nonzero"
  else if r.input.kind = .file ∧ r.input.uri = "" then reject "file input needs uri"
  else if r.output.kind = .file ∧ r.output.uri = "" then reject "file output needs uri"
  else if r.quality.qp < -1 ∨ r.quality.qp > 63 then reject "qp out of range"
  else if r.quality.bitrateBps < 0 then reject "negative bitrate"
  else .ok ()

end Rkvc
