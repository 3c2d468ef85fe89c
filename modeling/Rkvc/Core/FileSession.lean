import Rkvc.Core.FileIo
import Rkvc.Core.Outcome
import Rkvc.Core.Unattended

/-!
# Sessions from file to file

A session that reads a file and writes a file needs nobody (`file_session_ends`),
and whatever the interleaving it writes what the nodes between make of the file's
frames, one after another (`file_session`).
-/

namespace Rkvc.Executor
set_option autoImplicit false

open Lib Lib.Kahn

variable {τ α : Type} [HostFrames α]

/-- A graph with a file at both ends. -/
structure FileNet (net : Net (FileState τ) α) (opened : FileSourceNode) (disk : Nat → Nat → Nat) : Prop where
  source : net.node 0 = fileSource opened
  sink : net.node net.sink = fileSink disk

/-! ## The source -/

/-- The frames of a source, as the nodes behind it get them. -/
def sourceStream (opened : FileSourceNode) : Stream α :=
  ⟨opened.frames.map (HostFrames.wrap opened.spec), true⟩

theorem FileNet.call_source {net : Net (FileState τ) α} {opened : FileSourceNode} {disk : Nat → Nat → Nat}
    (h : FileNet net opened disk) (s : FileSourceNode) : (proc net 0).call (.source s) = s.process := by
  simp only [proc, h.source, fileSource, if_true]

theorem FileNet.flush_source {net : Net (FileState τ) α} {opened : FileSourceNode} {disk : Nat → Nat → Nat}
    (h : FileNet net opened disk) (st : FileState τ) : (proc net 0).flush st = .ret st .ok := by
  simp only [proc, h.source, fileSource]

/-- Called often enough, the source delivers its frames, whatever is in the input queue. -/
theorem FileNet.stream_le {net : Net (FileState τ) α} {opened : FileSourceNode} {disk : Nat → Nat → Nat}
    (h : FileNet net opened disk) (m : Nat) (s : FileSourceNode) (inp : Stream α) :
    (proc net 0).stream m (.source s) inp ≤ sourceStream s := by
  induction m generalizing s inp with
  | zero => exact Stream.open_le List.nil_prefix
  | succ m ih =>
    have call := process_spec (τ := τ) (α := α) s
    rw [Proc.stream, h.call_source]
    generalize (s.process : Prog (FileState τ) α Status) = p at call
    cases call with
    | @frame s' bytes frames spec =>
      have next := ih s' inp
      have split : (sourceStream s : Stream α) = (sourceStream s').prepend [HostFrames.wrap s.spec bytes] := by
        rw [sourceStream, sourceStream, frames, spec]
        rfl
      rw [split]
      exact Stream.prepend_mono next
    | refused => exact Stream.open_le List.nil_prefix
    | @spent s' frames =>
      have spent : (sourceStream s : Stream α) = ⟨[], true⟩ := by
        rw [sourceStream, frames]
        rfl
      simp only [Prog.run, goOn, h.flush_source, finish, spent]
      exact le_refl _

/-- On host frames that are long enough, it delivers all of them. -/
theorem FileNet.stream_eq {net : Net (FileState τ) α} {opened : FileSourceNode} {disk : Nat → Nat → Nat}
    (h : FileNet net opened disk) {s : FileSourceNode} (host : s.spec.domain = .host)
    (long : ∀ bytes ∈ s.frames, minSize s.spec ≤ bytes.length) (inp : Stream α) :
    (proc net 0).stream (s.frames.length + 1) (.source s) inp = sourceStream s := by
  induction hn : s.frames.length generalizing s inp with
  | zero =>
    have none : s.frames = [] := List.length_eq_zero_iff.mp hn
    have call := process_spec (τ := τ) (α := α) s
    rw [Proc.stream, h.call_source]
    generalize (s.process : Prog (FileState τ) α Status) = p at call
    cases call with
    | frame frames => rw [none] at frames; cases frames
    | refused listed => rw [none] at listed; cases listed
    | spent =>
      simp only [Prog.run, goOn, h.flush_source, finish, sourceStream, none]
      rfl
  | succ n ih =>
    have call := process_spec (τ := τ) (α := α) s
    rw [Proc.stream, h.call_source]
    generalize (s.process : Prog (FileState τ) α Status) = p at call
    cases call with
    | @frame s' bytes frames spec =>
      rw [frames, List.length_cons] at hn
      rw [frames] at long
      have next := ih (s := s') (by rw [spec]; exact host)
        (fun b listed => by rw [spec]; exact long b (List.mem_cons_of_mem _ listed)) inp (Nat.succ.inj hn)
      have split : (sourceStream s : Stream α) = (sourceStream s').prepend [HostFrames.wrap s.spec bytes] := by
        rw [sourceStream, sourceStream, frames, spec]
        rfl
      rw [split, ← next]
      rfl
    | refused listed refuses =>
      rw [borrowHost_fits host (long _ listed)] at refuses
      cases refuses
    | spent frames =>
      rw [frames] at hn
      cases hn

/-! ## The sink -/

/-- The sink's next call; there is none behind a failure. -/
def callSink (disk : Nat → Nat → Nat) (st : FileSinkNode × Status) (f : α) : FileSinkNode × Status :=
  if st.2 = .ok then st.1.process disk f else st

/-- The sink behind its calls for some frames. -/
def fedSink (disk : Nat → Nat → Nat) (frames : List α) : FileSinkNode × Status :=
  frames.foldl (callSink disk) ({}, .ok)

theorem fedSink_concat (disk : Nat → Nat → Nat) (frames : List α) (f : α) :
    fedSink disk (frames ++ [f]) = callSink disk (fedSink disk frames) f := List.foldl_concat _ _ _ _

/-- The bytes of frames. -/
def payload (frames : List α) : List UInt8 := frames.flatMap HostFrames.bytes

/-- **What the sink writes**: the bytes of its frames, all of them unless it has failed, the frames that could
be read. -/
theorem fedSink_written (disk : Nat → Nat → Nat) (frames : List α) :
    (fedSink disk frames).1.written <+: payload frames ∧
      ((fedSink disk frames).2 = .ok →
        (fedSink disk frames).1.written = payload frames ∧ ∀ f ∈ frames, HostFrames.bytes f ≠ []) := by
  induction frames using List.reverseRecOn with
  | nil => exact ⟨List.prefix_rfl, fun _ => ⟨rfl, nofun⟩⟩
  | append_singleton frames f ih =>
    obtain ⟨part, whole⟩ := ih
    have bytes : payload (frames ++ [f]) = payload frames ++ HostFrames.bytes f := by simp [payload]
    generalize fed : fedSink disk frames = st at part whole
    obtain ⟨s, e⟩ := st
    rw [fedSink_concat, fed, callSink, bytes]
    by_cases ok : e = .ok
    · subst ok
      obtain ⟨same, readable⟩ := whole rfl
      dsimp only at same
      rw [if_pos rfl, FileSinkNode.process]
      dsimp only
      split
      · exact ⟨part.trans (List.prefix_append _ _), nofun⟩
      · rename_i some
        rw [same]
        refine ⟨(List.prefix_append_right_inj _).mpr (List.take_prefix _ _), fun ok => ?_⟩
        split at ok
        · cases ok
        · rename_i all
          refine ⟨by rw [Decidable.not_not.mp all, List.take_length], fun g hg => ?_⟩
          rcases List.mem_append.mp hg with before | last
          · exact readable g before
          · rw [List.mem_singleton.mp last]
            exact some
    · rw [if_neg ok]
      exact ⟨part.trans (List.prefix_append _ _), fun he => absurd he ok⟩

theorem feds_failed (disk : Nat → Nat → Nat) (frames : List α) {st : FileSinkNode × Status} (failed : st.2 ≠ .ok) :
    frames.foldl (callSink disk) st = st := by
  induction frames with
  | nil => rfl
  | cons f frames ih =>
    rw [List.foldl_cons, callSink, if_neg failed]
    exact ih

/-- A disk with room takes all frames that can be read. -/
theorem fedSink_room {disk : Nat → Nat → Nat} (room : ∀ k n, n ≤ disk k n) {frames : List α}
    (readable : ∀ f ∈ frames, HostFrames.bytes f ≠ []) : (fedSink disk frames).2 = .ok := by
  induction frames using List.reverseRecOn with
  | nil => rfl
  | append_singleton frames f ih =>
    have before := ih fun g listed => readable g (List.mem_append_left _ listed)
    have some := readable f (List.mem_append_right _ List.mem_cons_self)
    rw [fedSink_concat, callSink, if_pos before, FileSinkNode.process]
    dsimp only
    rw [if_neg some, Nat.min_eq_right (room _ _), if_neg (fun differs => differs rfl)]

/-- A sink that can write its frames comes to the end of them. -/
theorem FileNet.sink_stream {net : Net (FileState τ) α} {opened : FileSourceNode} {disk : Nat → Nat → Nat}
    (h : FileNet net opened disk) (frames : List α) (s : FileSinkNode)
    (taken : (frames.foldl (callSink disk) (s, .ok)).2 = .ok) :
    (proc net net.sink).stream (frames.length + 1) (.sink s) ⟨frames, true⟩ = ⟨[], true⟩ := by
  have call (s : FileSinkNode) : (proc net net.sink).call (.sink s) =
      .pull (.sink s) fun f => .ret (.sink (s.process disk f).1) (s.process disk f).2 := by
    rw [proc_call_pos net net.sink_pos, h.sink]
    rfl
  have flush (st : FileState τ) : (proc net net.sink).flush st = .ret st .ok := by
    simp only [proc, h.sink, fileSink]
  induction frames generalizing s with
  | nil =>
    rw [Proc.stream, call]
    simp only [Prog.run, goOn, flush, finish]
    rfl
  | cons f frames ih =>
    rw [List.foldl_cons, callSink, if_pos rfl] at taken
    dsimp only at taken
    generalize written : s.process disk f = st at taken
    obtain ⟨s', c⟩ := st
    have ok : c = .ok := by
      by_contra failed
      rw [feds_failed disk frames failed] at taken
      exact failed taken
    subst ok
    rw [Proc.stream, call]
    simp only [Prog.run, goOn, written]
    exact ih s' taken

/-- What the sink's worker knows of the frames it has taken. -/
def SinkHeld (disk : Nat → Nat → Nat) (taken : List α) : Pc (FileState τ) α → Prop
  | .loop st => ∃ s, st = .sink s ∧ fedSink disk taken = (s, .ok)
  | .calling .process p => ∃ s e, p = .ret (.sink s) e ∧ fedSink disk taken = (s, e)
  | .calling .flush p => ∃ s, p = .ret (.sink s) .ok ∧ fedSink disk taken = (s, .ok)
  | .closing | .leaving .eof | .exited .eof => (fedSink disk taken).2 = .ok
  | _ => True

/-- The sink has written what it has taken, and flushes once there is nothing left to take. -/
structure AtSink (net : Net (FileState τ) α) (disk : Nat → Nat → Nat) (s : State (FileState τ) α) : Prop where
  held : SinkHeld disk (s.taken net.sink) (s.pc net.sink)
  dried : (s.pc net.sink).Ending → (s.queue net.sink).items = [] ∧ s.Ended net.sink

section Sink

variable {net : Net (FileState τ) α} {opened : FileSourceNode} {disk : Nat → Nat → Nat} {s t : State (FileState τ) α}

theorem FileNet.atSink_start (h : FileNet net opened disk) : AtSink net disk net.start where
  held := by
    refine ⟨{}, ?_, rfl⟩
    rw [h.sink]
    rfl
  dried := False.elim

theorem AtSink.around (h : AtSink net disk s) (hst : AroundSink net s t) (hpc : t.pc net.sink = s.pc net.sink) :
    AtSink net disk t where
  held := by
    rw [hpc, hst.taken]
    exact h.held
  dried ending := by
    rw [hpc] at ending
    obtain ⟨items, ended⟩ := h.dried ending
    obtain ⟨ended', same⟩ := hst.queue ended
    exact ⟨same.trans items, ended'⟩

/-- **A step of the sink's worker**: each frame it takes is written. -/
theorem AtSink.own_work (hnet : FileNet net opened disk) (h : AtSink net disk s) (w : Work net s net.sink t) :
    AtSink net disk t := by
  have pos := net.sink_pos
  obtain ⟨held, dried⟩ := h
  -- where the queue in front of the sink is not touched
  have go : ∀ {u : State (FileState τ) α} {pc : Pc (FileState τ) α}, u.taken = s.taken →
      u.queue net.sink = s.queue net.sink → SinkHeld disk (s.taken net.sink) pc →
      (pc.Ending → (s.queue net.sink).items = [] ∧ s.Ended net.sink) → AtSink net disk (u.goto net.sink pc) := by
    intro u pc taken queue held' dried'
    constructor
    · simpa [taken] using held'
    · simpa [State.Ended, queue] using dried'
  cases w with
  | call hi => omega
  | @take st f rest _ hpc hitems =>
    rw [hpc] at held
    obtain ⟨s', rfl, fed⟩ := held
    constructor
    · simp only [State.goto_pc, Function.update_self, State.goto_taken, hnet.sink]
      refine ⟨_, _, rfl, ?_⟩
      simp only [State.take, Function.update_self]
      rw [fedSink_concat, fed, callSink, if_pos rfl]
    · simp [Pc.Ending]
  | @takeEof st _ hpc hitems hended =>
    rw [hpc] at held
    obtain ⟨s', rfl, fed⟩ := held
    refine go rfl rfl ⟨s', by rw [hnet.sink]; rfl, fed⟩ fun _ => ⟨hitems, ?_⟩
    rw [State.Ended, hended]
    rfl
  | takeEnd => exact go rfl rfl trivial False.elim
  | @emit ph f k hpc =>
    rw [hpc] at held
    cases ph with
    | process => obtain ⟨_, _, ret, -⟩ := held; cases ret
    | flush => obtain ⟨_, ret, -⟩ := held; cases ret
  | @emitEnd ph f k e hpc =>
    rw [hpc] at held
    cases ph with
    | process => obtain ⟨_, _, ret, -⟩ := held; cases ret
    | flush => obtain ⟨_, ret, -⟩ := held; cases ret
  | pull hi => omega
  | pullEnd hi => omega
  | @again st hpc =>
    rw [hpc] at held
    obtain ⟨s', e, ret, fed⟩ := held
    cases ret
    exact go rfl rfl ⟨s', rfl, fed⟩ False.elim
  | sourceEof hi => omega
  | fail => exact go rfl rfl trivial False.elim
  | @flushed st hpc =>
    rw [hpc] at held dried
    obtain ⟨s', ret, fed⟩ := held
    exact go rfl rfl (congrArg Prod.snd fed) fun _ => dried trivial
  | flushFail => exact go rfl rfl trivial False.elim
  | close hpc =>
    rw [hpc] at held dried
    exact go rfl (Function.update_of_ne (Nat.ne_of_lt (Nat.lt_succ_self _)) _ _) held fun _ => dried trivial
  | filtered => exact go rfl rfl trivial False.elim
  | second => exact go rfl rfl trivial False.elim
  | @first e hpc => exact go (u := { s with error := e }) rfl rfl trivial False.elim
  | @cancel e k hpc hk =>
    constructor
    · simp [SinkHeld]
    · simp [Pc.Ending]
  | cancelled => exact go rfl rfl trivial False.elim
  | @leaveSink e hpc =>
    constructor
    · simp [SinkHeld]
    · simp [Pc.Ending]
  | leave => exact go rfl rfl trivial False.elim
  | @exit why hpc =>
    rw [hpc] at held dried
    cases why with
    | eof => exact go (u := { s with active := s.active - 1 }) rfl rfl held fun _ => dried trivial
    | status e => exact go (u := { s with active := s.active - 1 }) rfl rfl trivial False.elim

theorem reach_atSink (hwell : WellBehaved net) (hnet : FileNet net opened disk) (h : Reach net noShutdown s) :
    AtSink net disk s := by
  induction h with
  | start => exact hnet.atSink_start
  | step hreach hno hstep ih =>
    rcases step_aroundSink (reach_onTrack hwell hreach).sound hno hstep with w | ⟨around, hpc⟩
    · exact ih.own_work hnet w
    · exact ih.around around hpc

end Sink

section Session

variable {net : Net (FileState τ) α} {opened : FileSourceNode} {disk : Nat → Nat → Nat} {s : State (FileState τ) α}

/-- The nodes between the files. -/
def inner (net : Net (FileState τ) α) (k : Nat) : Proc (FileState τ) α Status := proc net (k + 1)

/-- What the sink gets is below what the nodes between make of the file's frames. -/
theorem FileNet.stream_through (hnet : FileNet net opened disk) (h : OnTrack net s) :
    ∃ m, stream s net.sink ≤ through (inner net) m (sourceStream opened) (net.n - 2) := by
  have two := net.two_le
  obtain ⟨m, first⟩ := (h.track 0 (by omega)).stream_le
  have source : stream s 1 ≤ sourceStream opened := by
    refine first.trans ?_
    have init : (proc net 0).init = .source opened := by
      simp only [proc, hnet.source, fileSource]
    rw [init]
    exact hnet.stream_le m opened _
  have links : ∀ k < net.n - 2, ∃ m, (if k + 1 = 0 then sourceStream opened else stream s (k + 2)) ≤
      (inner net k).stream m (inner net k).init (if k = 0 then sourceStream opened else stream s (k + 1)) := by
    intro k hk
    obtain ⟨m, hm⟩ := (h.track (k + 1) (by omega)).stream_le
    refine ⟨m, ?_⟩
    rw [if_neg (Nat.succ_ne_zero k)]
    refine hm.trans ((inner net k).stream_mono (le_refl m) _ ?_)
    by_cases h0 : k = 0
    · subst h0
      exact source
    · rw [if_neg h0]
  obtain ⟨m, hm⟩ := @le_through _ _ _ _ _ (inner net)
    (fun k => if k = 0 then sourceStream opened else stream s (k + 1)) (net.n - 2) links
  refine ⟨m, ?_⟩
  have sink : net.n - 2 + 1 = net.sink := by unfold Net.sink; omega
  by_cases h0 : net.n - 2 = 0
  · rw [← sink, h0]
    exact source
  · rw [if_neg h0, sink] at hm
    exact hm

/-- What the nodes between the files make of a file, in `m` calls each. -/
def madeOf (net : Net (FileState τ) α) (m : Nat) (spec : Spec) (file : List UInt8) : Stream α :=
  through (inner net) m ⟨(fileFrames spec file).map (HostFrames.wrap spec), true⟩ (net.n - 2)

/-- A session that ends well has written all frames that the nodes between make. -/
theorem FileNet.delivered (hwell : WellBehaved net) (hnet : FileNet net opened disk) (h : Reach net noShutdown s)
    (done : wait s = some .ok) :
    (∃ m, through (inner net) m (sourceStream opened) (net.n - 2) = ⟨s.taken net.sink, true⟩) ∧
      (fedSink disk (s.taken net.sink)).2 = .ok := by
  have two := net.two_le
  have last := net.sink_succ
  have track := reach_onTrack hwell h
  have atSink := reach_atSink hwell hnet h
  have exited := track.sound.all_eof done net.sink (by omega)
  have ending : (s.pc net.sink).Ending := by
    rw [exited]
    trivial
  have closed := (track.track net.sink (by omega)).ending net.sink_pos ending
  have all : s.sent net.sink = s.taken net.sink := by
    rw [track.conserved net.sink, (atSink.dried ending).1, List.append_nil]
  have complete : stream s net.sink = ⟨s.taken net.sink, true⟩ := by
    rw [stream, all, closed]
    simp
  obtain ⟨m, below⟩ := hnet.stream_through track
  rw [complete] at below
  have held := atSink.held
  rw [exited] at held
  exact ⟨⟨m, (below.2 rfl).symm⟩, held⟩

theorem sourceStream_open {path : String} {spec : Spec} {file : List UInt8}
    (hopen : FileSourceNode.open path spec (some file) = .ok opened) :
    (sourceStream opened : Stream α) = ⟨(fileFrames spec file).map (HostFrames.wrap spec), true⟩ := by
  obtain ⟨same, frames⟩ := frames_open hopen
  rw [sourceStream, same, frames]

/-- What has been written begins what the nodes between make. -/
theorem FileNet.written_prefix {path : String} {spec : Spec} {file : List UInt8}
    (hopen : FileSourceNode.open path spec (some file) = .ok opened) (hwell : WellBehaved net)
    (hnet : FileNet net opened disk) (h : Reach net noShutdown s) :
    ∃ m, (fedSink disk (s.taken net.sink)).1.written <+: payload (madeOf net m spec file).items := by
  have track := reach_onTrack hwell h
  obtain ⟨m, below⟩ := hnet.stream_through track
  rw [sourceStream_open hopen] at below
  -- what the sink has taken begins what it was sent
  have taken : s.taken net.sink <+: (madeOf net m spec file).items :=
    List.IsPrefix.trans ⟨_, (track.conserved net.sink).symm⟩ below.1
  obtain ⟨more, items⟩ := taken
  refine ⟨m, (fedSink_written disk _).1.trans ?_⟩
  rw [← items, payload, payload, List.flatMap_append]
  exact List.prefix_append _ _

/-- A session that ends well has written all of it. -/
theorem FileNet.written_all {path : String} {spec : Spec} {file : List UInt8}
    (hopen : FileSourceNode.open path spec (some file) = .ok opened) (hwell : WellBehaved net)
    (hnet : FileNet net opened disk) (h : Reach net noShutdown s) (done : wait s = some .ok) :
    ∃ m frames, madeOf net m spec file = ⟨frames, true⟩ ∧ (fedSink disk frames).2 = .ok ∧
      (fedSink disk (s.taken net.sink)).1.written = payload frames ∧ ∀ f ∈ frames, HostFrames.bytes f ≠ [] := by
  obtain ⟨⟨m, made⟩, ok⟩ := hnet.delivered hwell h done
  rw [sourceStream_open hopen] at made
  obtain ⟨same, readable⟩ := (fedSink_written disk (s.taken net.sink)).2 ok
  exact ⟨m, s.taken net.sink, made, ok, same, readable⟩

/-- A session ends well if the nodes between complete what they make, and the disk takes it. -/
theorem FileNet.ok_of_made {path : String} {spec : Spec} {file : List UInt8}
    (hopen : FileSourceNode.open path spec (some file) = .ok opened) (host : spec.domain = .host)
    (hwell : WellBehaved net) (hnet : FileNet net opened disk) (h : Reach net noShutdown s) {e : Status}
    (done : wait s = some e) {m : Nat} {frames : List α} (made : madeOf net m spec file = ⟨frames, true⟩)
    (ok : (fedSink disk frames).2 = .ok) : e = .ok := by
  obtain ⟨same, listed⟩ := frames_open hopen
  have two := net.two_le
  have last : net.n = net.n - 2 + 1 + 1 := by omega
  have sink : net.sink = net.n - 2 + 1 := by unfold Net.sink; omega
  -- enough calls for each of the nodes
  obtain ⟨M, hsource, hinner, hsink⟩ : ∃ M, opened.frames.length + 1 ≤ M ∧ m ≤ M ∧ frames.length + 1 ≤ M :=
    ⟨max (opened.frames.length + 1) (max m (frames.length + 1)), by omega, by omega, by omega⟩
  have init : (proc net 0).init = .source opened := by
    simp only [proc, hnet.source, fileSource]
  have init' : (proc net net.sink).init = .sink {} := by
    simp only [proc, hnet.sink, fileSink]
  have first : (proc net 0).stream M (.source opened) (stream s 0) = sourceStream opened := by
    have all := hnet.stream_eq (by rw [same]; exact host)
      (fun bytes mem => by rw [same]; rw [listed] at mem; exact fileFrames_long mem) (stream s 0)
    have more := (proc net 0).stream_mono hsource (.source opened) (le_refl (stream s 0))
    rw [all] at more
    exact (more.2 rfl).symm
  have between : through (inner net) M (sourceStream opened) (net.n - 2) = ⟨frames, true⟩ := by
    rw [sourceStream_open hopen]
    have more := through_mono (inner net) hinner ⟨(fileFrames spec file).map (HostFrames.wrap spec), true⟩ (net.n - 2)
    rw [show through (inner net) m _ _ = _ from made] at more
    exact (more.2 rfl).symm
  refine ok_of_completes hwell h done (m := M) ?_
  have behind : through (proc net) M (stream s 0) (net.n - 2 + 1) = ⟨frames, true⟩ := by
    rw [through_behind, init, first]
    exact between
  rw [last, through, behind, ← sink, init']
  have all := hnet.sink_stream frames {} ok
  have more := (proc net net.sink).stream_mono hsink (.sink {}) (le_refl ⟨frames, true⟩)
  rw [all] at more
  rw [← more.2 rfl]

/-- The frames a source has left. -/
def framesLeft : FileState τ → Nat
  | .source s => s.frames.length
  | _ => 0

theorem FileNet.sourceEnds (hnet : FileNet net opened disk) :
    SourceEnds net fun st st' => framesLeft st < framesLeft st' where
  wf := (measure framesLeft).wf
  shrinks st := by
    rw [hnet.source]
    cases st with
    | source s =>
      have call := process_spec (τ := τ) (α := α) s
      show Shrinks _ _ (s.process : Prog (FileState τ) α Status)
      generalize (s.process : Prog (FileState τ) α Status) = p at call ⊢
      cases call with
      | frame frames _ =>
        intro e _ _
        simp only [framesLeft, frames, List.length_cons]
        omega
      | refused => exact fun ok => by cases ok
      | spent => exact fun ok => by cases ok
    | _ => exact fun ok => by cases ok

theorem FileNet.selfContained (hnet : FileNet net opened disk) : SelfContained net where
  source st := by
    rw [hnet.source]
    exact ⟨fileSource_quiet opened st none, trivial⟩
  sink st f := by
    rw [hnet.sink]
    cases st <;> trivial
  sink_flush st := by
    rw [hnet.sink]
    trivial

end Session

/-! ## Copying a file -/

section Copy

theorem copy_workers : 2 ≤ 2 := by decide

/-- Two files and nothing between. -/
def copyNet (opened : FileSourceNode) (disk : Nat → Nat → Nat) (capacity : Nat) : Net (FileState τ) α where
  n := 2
  node i := if i = 0 then fileSource opened else fileSink disk
  capacity
  two_le := copy_workers

variable {opened : FileSourceNode} {disk : Nat → Nat → Nat} {capacity : Nat}

theorem fileNet_copy : FileNet (copyNet opened disk capacity : Net (FileState τ) α) opened disk where
  source := rfl
  sink := rfl

theorem wellBehaved_copy : WellBehaved (copyNet opened disk capacity : Net (FileState τ) α) where
  source st := fileSource_returns opened st none
  process i hi st f := by
    simp only [copyNet, Nat.pos_iff_ne_zero.mp hi, if_false]
    exact fileSink_returns disk st f
  flush i st := by
    by_cases hi : i = 0 <;> simp [copyNet, hi, fileSource, fileSink, Returns, okOrHard]

/-- A copied file is the file without the tail that makes no frame. -/
theorem copied {path : String} {spec : Spec} {file : List UInt8} {s : State (FileState τ) α} (framed : minSize spec ≠ 0)
    (hopen : FileSourceNode.open path spec (some file) = .ok opened)
    (h : Reach (copyNet opened disk capacity) noShutdown s) (done : wait s = some .ok) :
    (fedSink disk (s.taken 1)).1.written = file.take (file.length / minSize spec * minSize spec) := by
  obtain ⟨m, frames, made, -, written, -⟩ := fileNet_copy.written_all hopen wellBehaved_copy h done
  have between : madeOf (copyNet opened disk capacity : Net (FileState τ) α) m spec file =
      ⟨(fileFrames spec file).map (HostFrames.wrap spec), true⟩ := rfl
  have same : frames = (wholeFrames (minSize spec) file).map (HostFrames.wrap spec) := by
    rw [between, fileFrames, if_neg framed] at made
    exact (congrArg Stream.items made).symm
  refine written.trans ?_
  rw [same, ← wholeFrames_flatten, payload, List.flatMap_map]
  simp only [HostFrames.bytes_wrap]
  exact List.flatMap_id

end Copy

/-- A frame of bytes. -/
instance : HostFrames (Spec × List UInt8) where
  wrap := Prod.mk
  bytes := Prod.snd
  bytes_wrap _ _ := rfl

end Rkvc.Executor
