import Rkvc.Pspack.LateJoin

/-!
# Appending access units whole

A call of `next` erases what the call before it has consumed, so between two calls
the buffer holds consumed bytes, and `append` counts them. Where every access unit
is appended whole and `next` is called until `Again`, this is all that follows its
first PES packet: at that packet `next` returns the access unit before.
-/

namespace Rkvc.Pspack
set_option autoImplicit false

open Lib

/-! ## Turns of the loop -/

/-- The loop of `next` at one position goes on as it does at another. -/
structure Reaches (s : Demux) (pos : Nat) (t : Demux) (stop : Nat) : Prop where
  buf : t.buf = s.buf
  goes : ∀ fuel, s.buf.length < fuel + pos →
    ∃ fuel', s.buf.length < fuel' + stop ∧ Demux.nextLoop fuel s pos = Demux.nextLoop fuel' t stop

namespace Reaches

variable {s t v : Demux} {pos mid stop n i : Nat} {r : Reaction}

theorem refl (s : Demux) (pos : Nat) : Reaches s pos s pos := ⟨rfl, fun fuel enough => ⟨fuel, enough, rfl⟩⟩

theorem trans (h : Reaches s pos t mid) (k : Reaches t mid v stop) : Reaches s pos v stop where
  buf := k.buf.trans h.buf
  goes fuel enough := by
    obtain ⟨fuel₁, enough₁, eq₁⟩ := h.goes fuel enough
    obtain ⟨fuel₂, enough₂, eq₂⟩ := k.goes fuel₁ (by rw [h.buf]; exact enough₁)
    exact ⟨fuel₂, by rw [← h.buf]; exact enough₂, eq₁.trans eq₂⟩

theorem turn (h : Pspack.turn s.toAssembly (s.buf.drop pos) = some (n, r)) (quiet : r.frame = none) :
    Reaches s pos (s.moved r (pos + n)) (pos + n) where
  buf := rfl
  goes fuel enough := by
    obtain ⟨far, inside⟩ := turn_progress h
    rw [List.length_drop] at inside
    obtain ⟨fuel, rfl⟩ : ∃ k, fuel = k + 1 := ⟨fuel - 1, by omega⟩
    refine ⟨fuel, by omega, ?_⟩
    rw [Demux.nextLoop_turn h, quiet]

/-- Bytes no start code begins in are passed. -/
theorem clear (none : ∀ j < i, ¬startCode <+: (s.buf.drop pos).drop j) (inside : pos + i ≤ s.buf.length) :
    Reaches s pos s (pos + i) where
  buf := rfl
  goes fuel enough := by
    obtain ⟨fuel, rfl⟩ : ∃ k, fuel = k + 1 := ⟨fuel - 1, by omega⟩
    refine ⟨fuel + 1, by omega, ?_⟩
    have found : findSc s.buf (pos + i) = findSc s.buf pos := by
      rw [findSc_eq, findSc_eq, find_drop none, List.drop_drop, Option.map_map]
      congr 1
      funext m
      simp only [Function.comp_apply]
      omega
    rw [Demux.nextLoop, Demux.nextLoop, found]

/-- Packets that complete nothing. -/
theorem plays {a b : Assembly} {us : List Piece} {fs : List Frame} {y : List UInt8} (h : Plays a us fs b)
    (quiet : fs = []) (valid : ∀ u ∈ us, u.Valid) (same : s.toAssembly = a) (bytes : s.buf.drop pos = flat us ++ y) :
    ∃ t, Reaches s pos t (pos + (flat us).length) ∧ t.toAssembly = b := by
  induction h generalizing s pos with
  | nil => exact ⟨s, refl s pos, same⟩
  | @cons a u r us fs b hr _ ih =>
    obtain ⟨none, rest⟩ := List.append_eq_nil_iff.mp quiet
    subst same
    have ht := turn_append (turn_flat (valid u (by simp)) hr us) y
    rw [← bytes] at ht
    have here : (s.moved r (pos + u.bytes.length)).buf.drop (pos + u.bytes.length) = flat us ++ y := by
      rw [← List.drop_drop]
      simp only [Demux.moved, bytes, flat_cons, List.append_assoc, List.drop_left]
    obtain ⟨t, reached, asm⟩ := ih rest (fun v hv => valid v (by simp [hv])) rfl here
    refine ⟨t, ?_, asm⟩
    rw [flat_cons, List.length_append, ← Nat.add_assoc]
    exact (turn ht (by simpa using none)).trans reached

/-- What is left of a packet that has been read, and the pack behind it. -/
theorem leftover {g : List UInt8} {u : Piece} {us : List Piece} (short : g.length ≤ 3) (pack : u.isPack = true)
    (bytes : s.buf.drop pos = g ++ flat (u :: us)) :
    ∃ t, Reaches s pos t (pos + (g.length + u.bytes.length)) ∧ t.toAssembly = s.toAssembly := by
  have len := congrArg List.length bytes
  rw [List.length_drop, flat_cons, List.length_append, List.length_append] at len
  have long := guarded_bounds u
  have behind : Behind g (u :: us) := behind_short short fun _ => by rintro _ ⟨⟩; exact pack
  cases behind.seen s.toAssembly with
  | clear none =>
    have whole := turn_flat (pack_valid pack) (react_pack s.toAssembly pack) us
    have passed : Reaches s pos s (pos + g.length) := clear (by rw [bytes]; exact none) (by omega)
    have here : s.buf.drop (pos + g.length) = flat (u :: us) := by rw [← List.drop_drop, bytes, List.drop_left]
    rw [← here] at whole
    refine ⟨_, passed.trans ?_, rfl⟩
    rw [← Nat.add_assoc]
    exact turn whole rfl
  | inside here => omega
  | @edge j v vs here next _ skips =>
    -- the pack header has lost its first byte
    obtain ⟨rfl, rfl⟩ := List.cons.inj next
    obtain rfl : j = 0 := by omega
    rw [← bytes] at skips
    have damaged : s.buf.drop (pos + 4) = u.bytes.drop 1 ++ flat us := by
      rw [← List.drop_drop, bytes, List.drop_append, List.drop_eq_nil_of_le (by omega), List.nil_append,
        show 4 - g.length = 1 by omega, flat_cons, List.drop_append_of_le_length (by omega)]
    have passed : Reaches (s.moved { assembly := s.toAssembly } (pos + 4)) (pos + 4)
        (s.moved { assembly := s.toAssembly } (pos + 4)) (pos + 4 + (u.bytes.length - 1)) := by
      refine clear (fun k hk => ?_) (by simp only [Demux.moved]; omega)
      rw [show (s.moved { assembly := s.toAssembly } (pos + 4)).buf = s.buf from rfl, damaged]
      exact pack_clear pack (flat us) k (by rw [List.length_drop]; exact hk)
    refine ⟨_, (turn skips rfl).trans ?_, rfl⟩
    rwa [show pos + (g.length + u.bytes.length) = pos + (0 + 4) + (u.bytes.length - 1) by omega]
  | last nothing => cases nothing

end Reaches

/-! ## The calls for an access unit -/

namespace AccessUnit

/-- The packets behind the first PES packet. -/
def later (u : AccessUnit) : List Piece := fragmentPieces (clock33 u.pts90) u.rate u.fragments

/-- The bytes behind the first PES packet. -/
def kept (u : AccessUnit) : Nat := (flat u.later).length

end AccessUnit

section Calls

variable {s : Demux} {u : AccessUnit} {f : Frame} {a b : Assembly} {us : List Piece} {fs : List Frame}

/-- Behind packets that complete nothing and end the buffer, `next` returns `Again`. -/
theorem next_collects (h : Plays s.toAssembly us [] b) (valid : ∀ u ∈ us, u.Valid) (bytes : s.left = flat us) :
    ∃ t, s.next = some (.error { status := .again }, t) ∧ t.buf = flat us ∧ t.toAssembly = b ∧
      t.cursor ≤ t.buf.length ∧ t.left.length ≤ 3 := by
  have whole : s.erase.buf.drop 0 = flat us ++ [] := by rw [List.append_nil]; exact bytes
  obtain ⟨t, reached, asm⟩ := Reaches.plays (s := s.erase) h rfl valid rfl whole
  obtain ⟨fuel, enough, eq⟩ := reached.goes _ (Nat.lt_succ_self _)
  have len : s.erase.buf.length = (flat us).length := congrArg List.length bytes
  obtain ⟨fuel, rfl⟩ : ∃ k, fuel = k + 1 := ⟨fuel - 1, by omega⟩
  have ended : t.buf.drop (0 + (flat us).length) = [] := by
    rw [reached.buf]
    exact List.drop_eq_nil_of_le (by omega)
  have nothing : nextPacket (t.buf.drop (0 + (flat us).length)) = none := by
    rw [ended]
    exact nextPacket_short (by decide)
  have resume : t.resumeAt (0 + (flat us).length) = t.buf.length - 3 := by
    have unseen : find startCode (t.buf.drop (0 + (flat us).length)) = none := by rw [ended]; rfl
    simp only [Demux.resumeAt, unseen]
    split <;> omega
  refine ⟨{ t with cursor := t.resumeAt (0 + (flat us).length) }, ?_, ?_, asm, ?_, ?_⟩
  · rw [Demux.next, eq, Demux.nextLoop_wait nothing]
  · exact reached.buf.trans bytes
  · rw [resume]
    exact Nat.sub_le _ _
  · rw [resume, Demux.left, List.length_drop]
    dsimp only
    omega

/-- `next` returns the access unit under assembly at the first PES packet of the next one. -/
theorem next_completes {g : List UInt8} (short : g.length ≤ 3) (sized : u.Sized) (bytes : s.left = g ++ flat u.pieces)
    (completes : (s.setPsm u.map).completes = some f) :
    ∃ t, s.next = some (.ok f, t) ∧ t.left = flat u.later ∧ t.cursor ≤ t.buf.length ∧
      t.toAssembly = (s.setPsm u.map).start (clock33 u.pts90) u.head := by
  have shape : u.pieces = .pack (clock33 u.pts90) u.rate :: (u.mapPieces ++ .first u.pts90 u.head :: u.later) := by
    rw [AccessUnit.pieces_eq]
    rfl
  have valid := pieces_valid sized
  rw [shape] at valid bytes
  -- the pack header
  have start : s.erase.buf.drop 0 = g ++ flat (.pack (clock33 u.pts90) u.rate ::
      (u.mapPieces ++ .first u.pts90 u.head :: u.later)) := bytes
  obtain ⟨s₁, packed, asm₁⟩ := Reaches.leftover short rfl start
  have here₁ : s₁.buf.drop (0 + (g.length + (Piece.pack (clock33 u.pts90) u.rate).bytes.length)) =
      flat u.mapPieces ++ flat (.first u.pts90 u.head :: u.later) := by
    rw [packed.buf, ← flat_append, Nat.zero_add, ← List.drop_drop]
    rw [show s.erase.buf = _ from bytes, List.drop_left, flat_cons, List.drop_left]
  -- the map
  obtain ⟨s₂, mapped, asm₂⟩ := Reaches.plays (mapPieces_plays s₁.toAssembly u) rfl
    (fun v hv => valid v (List.mem_cons_of_mem _ (List.mem_append_left _ hv))) rfl here₁
  generalize 0 + (g.length + (Piece.pack (clock33 u.pts90) u.rate).bytes.length) = p at *
  have here₂ : s₂.buf.drop (p + (flat u.mapPieces).length) = flat (.first u.pts90 u.head :: u.later) := by
    rw [mapped.buf, ← List.drop_drop, here₁, List.drop_left]
  rw [asm₁] at asm₂
  -- the first PES packet
  obtain ⟨r, hr⟩ : ∃ r : Reaction, r =
      { assembly := s₂.emitAu.2.start (clock33 u.pts90) u.head, frame := s₂.emitAu.1.toOption, taken := true } :=
    ⟨_, rfl⟩
  have reacted : react s₂.toAssembly (Piece.first u.pts90 u.head).packet = some r := by
    rw [hr]
    rfl
  have turned := turn_flat (valid (.first u.pts90 u.head) (by simp)) reacted u.later
  rw [← here₂] at turned
  have taken : r.taken = true := by rw [hr]
  have emitted : r.frame = some f := by
    rw [hr, asm₂]
    exact completes
  obtain ⟨fuel, enough, eq⟩ := (packed.trans mapped).goes _ (Nat.lt_succ_self _)
  have progress := turn_progress turned
  have buf : s₂.buf.length = s.erase.buf.length := by rw [mapped.buf, packed.buf]
  rw [List.length_drop, buf] at progress
  obtain ⟨fuel, rfl⟩ : ∃ k, fuel = k + 1 := ⟨fuel - 1, by omega⟩
  refine ⟨s₂.moved r (p + (flat u.mapPieces).length + (Piece.first u.pts90 u.head).bytes.length), ?_, ?_, ?_, ?_⟩
  · rw [Demux.next, eq, Demux.nextLoop_turn turned, emitted]
  · rw [moved_left taken, ← List.drop_drop, here₂, flat_cons, List.drop_left]
  · simp only [Demux.moved, taken, if_true]
    omega
  · simp only [Demux.moved, hr, Assembly.emitAu_start, asm₂]
    rfl

end Calls

/-! ## Every access unit -/

/-- Between the access units: what follows the first PES packet of the last one, the last
three bytes of it unread. -/
structure Holding (s : Demux) (held : Nat) : Prop where
  held : s.buf.length = held
  inside : s.cursor ≤ s.buf.length
  short : s.left.length ≤ 3
  opened : s.auOpen = true
  collected : s.au ≠ []

section Drain

variable {s : Demux} {u : AccessUnit} {units : List AccessUnit} {held : Nat}

theorem flat_pieces_pos (u : AccessUnit) : 0 < (flat u.pieces).length := by
  have pack := bytes_length (.pack (clock33 u.pts90) u.rate)
  rw [AccessUnit.pieces_eq, AccessUnit.headers, List.cons_append, flat_cons, List.length_append, pack]
  simp only [Piece.packet, Packet.len]
  omega

theorem opened_holding {t : Demux} (sized : u.Sized) {a : Assembly} (asm : t.toAssembly = a.opened u)
    (inside : t.cursor ≤ t.buf.length) (short : t.left.length ≤ 3) : Holding t t.buf.length where
  held := rfl
  inside := inside
  short := short
  opened := by rw [asm]; rfl
  collected := by
    rw [asm]
    exact List.ne_nil_of_length_pos sized.1

/-- The first access unit is collected by one call. -/
theorem drain_first (sized : u.Sized) :
    ∃ t, ({ buf := flat u.pieces } : Demux).drain = some ([], .again, t) ∧ Holding t u.size := by
  have plays : Plays {} u.pieces [] (({} : Assembly).opened u) := by
    have := pieces_play {} sized
    rwa [completes_of_closed (by rw [setPsm_auOpen])] at this
  obtain ⟨t, eq, buf, asm, inside, short⟩ := next_collects (s := { buf := flat u.pieces }) plays (pieces_valid sized)
    (by rw [Demux.left, List.drop_zero])
  refine ⟨t, by rw [Demux.drain, Demux.drainLoop, eq], ?_⟩
  have := opened_holding sized asm inside short
  rwa [buf] at this

/-- The access unit before is returned by the first call, and the second collects the rest. -/
theorem Holding.drain (h : Holding s held) (sized : u.Sized) :
    ∃ f t, ({ s with buf := s.buf ++ flat u.pieces } : Demux).drain = some ([f], .again, t) ∧ Holding t u.kept := by
  obtain ⟨f, completes⟩ : ∃ f, (s.setPsm u.map).completes = some f := by
    obtain ⟨codec, completes⟩ := completes_of_open (a := s.setPsm u.map) (by rw [setPsm_auOpen]; exact h.opened)
      (by rw [setPsm_au]; exact h.collected)
    exact ⟨_, completes⟩
  obtain ⟨s₁, eq₁, left₁, inside₁, asm₁⟩ := next_completes (s := { s with buf := s.buf ++ flat u.pieces }) h.short sized
    (List.drop_append_of_le_length h.inside) completes
  have room : u.head.length + u.fragments.flatten.length ≤ kMaxPayload := by
    rw [← List.length_append, fragments_flatten]
    exact sized.2
  have plays := fragments_play (a := s₁.toAssembly) (clock33 u.pts90) u.rate (by rw [asm₁]; rfl) (by rw [asm₁]; exact room)
  have valid : ∀ v ∈ u.later, v.Valid := fragmentPieces_valid fun p hp => chunksOf_mem hp
  obtain ⟨t, eq, buf, asm, inside, short⟩ := next_collects plays valid left₁
  have whole : t.toAssembly = (s.toAssembly).opened u := by
    rw [asm, asm₁]
    simp only [Assembly.start, fragments_flatten]
    rfl
  refine ⟨f, t, ?_, ?_⟩
  · have some := flat_pieces_pos u
    obtain ⟨fuel, hfuel⟩ : ∃ k, (s.buf ++ flat u.pieces).length = k + 1 :=
      ⟨(s.buf ++ flat u.pieces).length - 1, by rw [List.length_append]; omega⟩
    rw [Demux.drain, hfuel, Demux.drainLoop, eq₁]
    dsimp only
    rw [Demux.drainLoop, eq]
    rfl
  · have := opened_holding sized whole inside short
    rwa [buf] at this

end Drain

/-! ## The size of an access unit -/

theorem chunksOf_length {k : Nat} (hk : 0 < k) (fuel : Nat) (l : List UInt8) :
    (chunksOf k fuel l).length * k < l.length + k := by
  induction fuel generalizing l with
  | zero => simpa [chunksOf] using Nat.lt_add_left l.length hk
  | succ fuel ih =>
    rw [chunksOf]
    split
    · simpa using Nat.lt_add_left l.length hk
    · rename_i some
      have pos := List.length_pos_iff.mpr some
      have rest := ih (l.drop k)
      rw [List.length_drop] at rest
      rw [List.length_cons, Nat.succ_mul]
      by_cases last : l.length ≤ k
      · rw [show l.length - k = 0 by omega, Nat.zero_add] at rest
        have none : (chunksOf k fuel (l.drop k)).length = 0 := by
          by_contra more
          exact absurd rest (Nat.not_lt.mpr (Nat.le_mul_of_pos_left k (Nat.pos_of_ne_zero more)))
        rw [none]
        omega
      · omega

theorem fragmentPieces_length (scr rate : Nat) (fragments : List (List UInt8)) :
    (flat (fragmentPieces scr rate fragments)).length = 23 * fragments.length + fragments.flatten.length := by
  induction fragments with
  | nil => rfl
  | cons p fragments ih =>
    have shape : fragmentPieces scr rate (p :: fragments) = .pack scr rate :: .more p :: fragmentPieces scr rate fragments :=
      rfl
    rw [shape, flat_cons, flat_cons, List.length_append, List.length_append, ih, bytes_length, bytes_length]
    simp only [Piece.packet, Packet.len, List.length_cons, List.flatten_cons, List.length_append]
    omega

theorem headers_length (u : AccessUnit) : (flat u.headers).length ≤ 49 := by
  unfold AccessUnit.headers AccessUnit.mapPieces
  split <;> simp [bytes_length, Piece.packet, Packet.len]

/-- **One access unit fits the buffer**, and the three bytes that may be unread. -/
theorem size_fits {u : AccessUnit} (sized : u.Sized) : u.size + 3 ≤ kMaxBuffered := by
  have whole := congrArg List.length (fragments_flatten u)
  have count := chunksOf_length (k := kPesChunk) (Nat.succ_pos 59999) u.annexb.length (u.annexb.drop kPesChunk)
  have few := headers_length u
  have most := sized.2
  rw [List.length_append] at whole
  rw [List.length_drop, ← AccessUnit.fragments] at count
  have shape : u.size = (flat u.headers).length +
      (14 + u.head.length + (23 * u.fragments.length + u.fragments.flatten.length)) := by
    rw [AccessUnit.size, AccessUnit.pieces_eq, AccessUnit.body, flat_append, flat_cons, List.length_append,
      List.length_append, bytes_length, fragmentPieces_length]
    rfl
  rw [shape]
  have limit : kMaxBuffered = 68157440 := rfl
  have payload : kMaxPayload = 67108864 := rfl
  have chunk : kPesChunk = 60000 := rfl
  rw [limit]
  rw [payload] at most
  rw [chunk] at count
  omega

/-! ## When nothing fails -/

/-- Appending and draining never fails. -/
def NeverFails (s : Demux) (chunks : List (List UInt8)) : Prop :=
  ∃ out, receive s chunks = .ok out ∧ ∀ st ∈ out.statuses, st = .again

/-- Every access unit fits beside what is held when it is appended. -/
def Admits : Nat → List AccessUnit → Prop
  | _, [] => True
  | held, u :: units => held + u.size ≤ kMaxBuffered ∧ Admits u.kept units

/-- Of the first access unit everything is held. -/
def Admitted : List AccessUnit → Prop
  | [] => True
  | u :: units => Admits u.size units

section Admission

variable {s : Demux} {u : AccessUnit} {units : List AccessUnit} {held : Nat}

theorem append_unit (h : held = s.buf.length) (u : AccessUnit) :
    s.append (flat u.pieces) =
      if held + u.size ≤ kMaxBuffered then (.ok, { s with buf := s.buf ++ flat u.pieces }) else (.format, s) := by
  have some := flat_pieces_pos u
  have full : ¬(flat u.pieces).isEmpty = true := by
    rw [List.isEmpty_iff]
    exact List.ne_nil_of_length_pos some
  rw [Demux.append, if_neg full, ← h, ← AccessUnit.size]
  split
  · rw [if_neg (by omega)]
  · rw [if_pos (by omega)]

/-- **From one access unit to the end**: nothing fails, or `append` refuses one. -/
theorem Holding.receives (h : Holding s held) (sized : ∀ u ∈ units, u.Sized) :
    (Admits held units → NeverFails s (units.map fun u => flat u.pieces)) ∧
      (¬Admits held units → receive s (units.map fun u => flat u.pieces) = .error .refused) := by
  induction units generalizing s held with
  | nil => exact ⟨fun _ => ⟨_, rfl, nofun⟩, fun refused => absurd trivial refused⟩
  | cons u units ih =>
    have appended := append_unit h.held.symm u
    by_cases fits : held + u.size ≤ kMaxBuffered
    · rw [if_pos fits] at appended
      obtain ⟨f, t, drained, next⟩ := h.drain (sized u (by simp))
      obtain ⟨goes, stops⟩ := ih next fun v hv => sized v (by simp [hv])
      constructor
      · rintro ⟨-, rest⟩
        obtain ⟨out, received, again⟩ := goes rest
        refine ⟨{ out with frames := f :: out.frames, statuses := .again :: out.statuses }, ?_, by simpa using again⟩
        simp only [List.map_cons, receive, appended, drained, received]
        rfl
      · intro refused
        have later := stops fun rest => refused ⟨fits, rest⟩
        simp only [List.map_cons, receive, appended, drained, later]
        rfl
    · rw [if_neg fits] at appended
      constructor
      · rintro ⟨room, -⟩
        exact absurd room fits
      · intro _
        simp only [List.map_cons, receive, appended]

theorem receives_stream (sized : ∀ u ∈ units, u.Sized) :
    (Admitted units → NeverFails {} (units.map fun u => flat u.pieces)) ∧
      (¬Admitted units → receive {} (units.map fun u => flat u.pieces) = .error .refused) := by
  cases units with
  | nil => exact ⟨fun _ => ⟨_, rfl, nofun⟩, fun refused => absurd trivial refused⟩
  | cons u units =>
    have fits := size_fits (sized u (by simp))
    have empty : 0 = ({} : Demux).buf.length := rfl
    have appended := append_unit empty u
    rw [if_pos (by omega)] at appended
    obtain ⟨t, drained, next⟩ := drain_first (sized u (by simp))
    have others : ∀ v ∈ units, v.Sized := fun v hv => sized v (List.mem_cons_of_mem u hv)
    obtain ⟨goes, stops⟩ := next.receives others
    constructor
    · intro rest
      obtain ⟨out, received, again⟩ := goes rest
      refine ⟨{ out with statuses := .again :: out.statuses }, ?_, by simpa using again⟩
      simp only [List.map_cons, receive, appended, List.nil_append, drained, received]
      rfl
    · intro refused
      simp only [List.map_cons, receive, appended, List.nil_append, drained, stops refused]
      rfl

end Admission

/-- **Appending access units whole fails exactly where** one does not fit beside what is
held of the one before: consumed bytes count until the next call. -/
theorem appends_iff (units : List AccessUnit) (sized : ∀ u ∈ units, u.Sized) :
    ∃ muxed, units.mapM AccessUnit.mux = .ok muxed ∧ (NeverFails {} muxed ↔ Admitted units) := by
  obtain ⟨goes, stops⟩ := receives_stream sized
  refine ⟨_, mux_all sized, ⟨?_, goes⟩⟩
  rintro ⟨out, received, -⟩
  by_contra refused
  rw [stops refused] at received
  cases received

theorem appends_iff_small :
    ∃ muxed, [smallUnit, smallUnit].mapM AccessUnit.mux = .ok muxed ∧ NeverFails {} muxed := by
  obtain ⟨muxed, ok, admitted⟩ := appends_iff [smallUnit, smallUnit] (by decide)
  have room : Admitted [smallUnit, smallUnit] := ⟨by decide +kernel, trivial⟩
  exact ⟨muxed, ok, admitted.mpr room⟩

/-- Two access units of more than half the buffer: at the second the first has been
consumed but for three bytes. -/
theorem second_refused {u : AccessUnit} (sized : u.Sized) (large : kMaxBuffered < 2 * u.annexb.length) :
    ∃ c t, u.mux = .ok c ∧ (({} : Demux).append c).2.drain = some ([], .again, t) ∧
      t.left.length + c.length ≤ kMaxBuffered ∧ (t.append c).1 = .format := by
  have fits := size_fits sized
  obtain ⟨t, drained, holding⟩ := drain_first sized
  have empty : 0 = ({} : Demux).buf.length := rfl
  have appended := append_unit empty u
  rw [if_pos (by omega)] at appended
  have size : u.annexb.length ≤ u.size := by
    have whole := congrArg List.length (fragments_flatten u)
    rw [List.length_append] at whole
    rw [AccessUnit.size, AccessUnit.pieces_eq, AccessUnit.body, flat_append, flat_cons, List.length_append,
      List.length_append, bytes_length, fragmentPieces_length]
    simp only [Piece.packet, Packet.len]
    omega
  refine ⟨flat u.pieces, t, mux_eq sized, ?_, ?_, ?_⟩
  · simpa only [appended, List.nil_append] using drained
  · have short := holding.short
    rw [← AccessUnit.size]
    omega
  · rw [append_unit holding.held.symm, if_neg (by omega)]

/-- 40 MiB. -/
def hugeUnit : AccessUnit := ⟨.hevc, List.replicate 41943040 9, 0, false, 25000⟩

theorem huge_unit_refused :
    ∃ c t, hugeUnit.mux = .ok c ∧ (({} : Demux).append c).2.drain = some ([], .again, t) ∧
      t.left.length + c.length ≤ kMaxBuffered ∧ (t.append c).1 = .format := by
  have len : hugeUnit.annexb.length = 41943040 := List.length_replicate
  have limit : kMaxBuffered = 68157440 := rfl
  have payload : kMaxPayload = 67108864 := rfl
  have sized : hugeUnit.Sized := ⟨by rw [len]; decide, by rw [len, payload]; decide⟩
  exact second_refused sized (by rw [len, limit]; decide)

end Rkvc.Pspack
