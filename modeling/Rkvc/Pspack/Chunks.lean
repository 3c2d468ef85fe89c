import Rkvc.Pspack.Stream

/-!
# Chunks of arbitrary input

Where `next` finds no start code it goes back three bytes from the end of the
buffer, and with that into a packet that ends there, unless the packet has completed
an access unit. A start code that begins in these bytes is come to if a chunk ends
behind the packet, and is not if it ends elsewhere. Without such start codes the
chunks make no difference.
-/

namespace Rkvc.Pspack
set_option autoImplicit false

open Lib

/-! ## Packets that end cleanly -/

/-- No start code begins in the last three bytes of the packet that ends at `n`. -/
def CleanTail (w : List UInt8) (n : Nat) : Prop := ∀ j < n, n - 3 ≤ j → ¬startCode <+: w.drop j

/-- Every packet the demuxer comes to ends cleanly, if it completes no access unit. -/
inductive Clean : Assembly → List UInt8 → Prop where
  | done {a w} : turn a w = none → Clean a w
  | step {a w n r} : turn a w = some (n, r) → (r.frame = none → CleanTail w n) →
      Clean r.assembly (w.drop n) → Clean a w

/-- Bytes may be left in front of the first start code. -/
def CleanBehind (a : Assembly) (w : List UInt8) : Prop := ∃ v, Trimmed w v ∧ Clean a v

section Clean

variable {a b : Assembly} {w v u : List UInt8} {n sc k : Nat} {r : Reaction} {log : List Visit}

/-- Going back into a packet that ends cleanly only adds bytes in front of the first start code. -/
theorem CleanTail.trimmed (clean : CleanTail w n) (inside : n ≤ w.length) (hk : k ≤ 3) :
    Trimmed (w.drop (n - k)) (w.drop n) := by
  refine ⟨n - (n - k), by rw [List.length_drop]; omega, ?_, ?_⟩
  · intro j hj begins
    rw [List.drop_drop] at begins
    exact clean (n - k + j) (by omega) (by omega) begins
  · rw [List.drop_drop]
    congr 1
    omega

/-- A turn of a clean stream, and going back behind it. -/
theorem CleanBehind.turned (h : CleanBehind a w) (ht : turn a w = some (n, r)) (hk : k ≤ 3)
    (quiet : r.frame = none ∨ k = 0) :
    Trimmed (w.drop (n - k)) (w.drop n) ∧ Clean r.assembly (w.drop n) := by
  obtain ⟨v, ⟨i, hi, clear, rfl⟩, clean⟩ := h
  have shifted := ht
  rw [turn_drop clear] at shifted
  obtain ⟨⟨m, r'⟩, hv, eq⟩ := Option.map_eq_some_iff.mp shifted
  obtain ⟨rfl, rfl⟩ := Prod.mk.inj eq
  have inside := turn_progress ht
  cases clean with
  | done none =>
    rw [none] at hv
    cases hv
  | step turned tail rest =>
    obtain ⟨rfl, rfl⟩ := Prod.mk.inj (Option.some.inj (hv.symm.trans turned))
    have cut : w.drop (m + i) = (w.drop i).drop m := by rw [List.drop_drop, Nat.add_comm]
    constructor
    · rcases quiet with quiet | rfl
      · have whole : CleanTail w (m + i) := by
          intro j hj back begins
          by_cases before : j < i
          · exact clear j before begins
          · refine tail quiet (j - i) (by omega) (by omega) ?_
            rw [List.drop_drop]
            rwa [show i + (j - i) = j by omega]
        exact whole.trimmed inside.2 hk
      · exact Trimmed.refl _
    · rw [cut]
      exact rest

/-- **Clean streams can be resumed.** -/
theorem resumable_clean : Resumable CleanBehind where
  go := by
    intro a w n r k mem ht hk quiet
    obtain ⟨trimmed, clean⟩ := mem.turned ht hk quiet
    constructor
    · exact ⟨_, trimmed, clean⟩
    · obtain ⟨i, -, clear, eq⟩ := trimmed
      rw [eq]
      exact same_drop clear

/-! ## Start codes come to in a run -/

/-- What a run comes to begins at the first start code or behind it. -/
theorem Runs.ahead_le (run : Runs a w log b u) (h : Trimmed w v) : ∀ e ∈ log, e.ahead ≤ v.length := by
  induction run generalizing v with
  | refl => exact nofun
  | @see a w sc log b u hsc rest ih =>
    intro e he
    rcases List.mem_cons.mp he with rfl | later
    · obtain ⟨i, -, clear, rfl⟩ := h
      have behind : i ≤ sc := by
        by_contra before
        exact clear sc (by omega) (find_some hsc).1
      rw [List.length_drop]
      dsimp only
      omega
    · exact ih h e later
  | @go a w sc n r k log b u hsc ht hk quiet rest ih =>
    obtain ⟨i, -, clear, rfl⟩ := h
    have behind : i ≤ sc := by
      by_contra before
      exact clear sc (by omega) (find_some hsc).1
    have far := turn_bounds hsc ht
    intro e he
    rw [List.length_drop]
    rcases List.mem_cons.mp he with rfl | later
    · simp only [Reaction.visit]
      omega
    · have := ih (Trimmed.refl _) e later
      rw [List.length_drop] at this
      omega

/-- **A run of a clean stream** scans no payload again that it has taken. -/
theorem Runs.noRescan (run : Runs a w log b u) (mem : CleanBehind a w) : NoRescan log := by
  induction run with
  | refl => exact .nil
  | see hsc rest ih => exact .cons (fun e _ stop taken => nomatch taken) (ih mem)
  | @go a w sc n r k log b u hsc ht hk quiet rest ih =>
    obtain ⟨trimmed, clean⟩ := mem.turned ht hk quiet
    refine .cons ?_ (ih ⟨_, trimmed, clean⟩)
    intro e he stop taken
    have later := rest.ahead_le trimmed e he
    rw [List.length_drop] at later
    simp only [Reaction.visit] at taken
    split at taken
    · obtain rfl := Option.some.inj taken
      exact later
    · cases taken

/-- What comes after a refused packet is not behind it. -/
theorem Repeats.noRescan {visits : List Visit} (h : Repeats log visits) (clean : NoRescan log) : NoRescan visits := by
  obtain ⟨took, idle, later, rfl, rfl, quiet, f, hf, bounds⟩ := h
  obtain ⟨-, -, crossed⟩ := List.pairwise_append.mp clean
  refine List.pairwise_append.mpr ⟨clean, ?_, ?_⟩
  · refine List.Pairwise.imp_of_mem ?_ (List.pairwise_of_forall fun _ _ => trivial)
    intro e e' he _ _ stop taken
    rw [quiet e (List.mem_append_right _ he)] at taken
    cases taken
  · intro e he e' he' stop taken
    rcases List.mem_append.mp he with before | there
    · exact (bounds e' he').trans (crossed e before f hf stop taken)
    · rw [quiet e (List.mem_append_left _ there)] at taken
      cases taken

end Clean

/-! ## Every way of cutting -/

/-- **Chunks make no difference** to input whose packets end cleanly: whatever the chunks, the
frames are those of the input as a whole, and no payload that was taken is scanned again. -/
theorem chunks_agree (w : List UInt8) (clean : Clean {} w) (limit : w.length ≤ kMaxBuffered) :
    ∀ chunks : List (List UInt8), chunks.flatten = w →
      ∃ out, receive {} chunks = .ok out ∧ out.delivered = deliveredOf {} w ∧ NoRescan (receiveVisits {} chunks) := by
  rintro chunks rfl
  have mem : CleanBehind {} chunks.flatten := ⟨_, Trimmed.refl _, clean⟩
  have accepted : receive {} chunks ≠ .error .refused :=
    receive_accepts chunks (by rw [show ({} : Demux).buf.length = 0 from rfl]; omega)
  obtain ⟨out, log, b, u, received, h⟩ := (receive_runs chunks).resolve_left accepted
  have run : Runs {} chunks.flatten log b u := h.run
  have scanned := run.noRescan mem
  refine ⟨out, received, ?_, ?_⟩
  · have whole := (resumable_clean.runs_to_end run mem h.stops).1
    rw [h.delivered, deliveredOf, whole]
  · rcases h.ends with ⟨-, eq⟩ | ⟨-, repeats⟩
    · rwa [eq]
    · exact repeats.noRescan scanned

/-- One PES packet. -/
theorem chunks_agree_packet :
    ∃ out, receive {} [(Piece.first 0 [7]).bytes.take 5, (Piece.first 0 [7]).bytes.drop 5] = .ok out ∧
      out.delivered = deliveredOf {} (Piece.first 0 [7]).bytes ∧
        NoRescan (receiveVisits {} [(Piece.first 0 [7]).bytes.take 5, (Piece.first 0 [7]).bytes.drop 5]) := by
  have reaction : react {} (Piece.first 0 [7]).packet = some _ := rfl
  have turned := turn_flat (fun _ => by decide) reaction []
  rw [flat_cons, flat_nil, List.append_nil] at turned
  have clean : Clean {} (Piece.first 0 [7]).bytes := by
    refine .step turned (fun _ => by unfold CleanTail; decide +kernel) ?_
    rw [List.drop_length]
    exact .done (by rw [turn, nextPacket_short (by decide), Option.bind_none])
  exact chunks_agree _ clean (by decide +kernel) _ (by decide +kernel)

/-- A PES packet whose payload ends like a start code. -/
def openEnded : List UInt8 := [0, 0, 1, 0xE0, 0, 11, 0x84, 0x80, 5, 0x21, 0, 1, 0, 1, 0, 0, 1]

/-- What a PES packet is but for its start code. -/
def headless : List UInt8 := [0xE0, 0, 9, 0x84, 0x80, 5, 0x21, 0, 1, 0, 1, 7]

/-- Cut behind the packet the rest is one more access unit, and uncut it is garbage. -/
theorem cut_changes_frames :
    (receive {} [openEnded ++ headless]).toOption.map (fun out => out.delivered.map Frame.annexb) =
        some [[0, 0, 1]] ∧
      (receive {} [openEnded, headless]).toOption.map (fun out => out.delivered.map Frame.annexb) =
        some [[0, 0, 1], [7]] ∧
      ¬NoRescan (receiveVisits {} [openEnded, headless]) := by
  refine ⟨by decide +kernel, by decide +kernel, ?_⟩
  unfold NoRescan
  decide +kernel

end Rkvc.Pspack
