import Rkvc.Mlvc.Rans.Interval

/-!
# The encoder does not depend on its buffer

All an encoder does is write and take new states: a relation that these two keep is
kept by `encode` and by the end of `flush` (`RansEncoder.Closed`). Two instances make
the buffer invisible. Encoders that have written the same bytes go on to write the
same bytes, whatever their capacities (`RansEncoder.Same`). And every state of a run
is a `RansEncoder.Moment`, at which the buffer can grow with every byte kept at its
distance from the end (`RansEncoder.Moment.grow`).
-/

namespace Rkvc.Mlvc
set_option autoImplicit false
open Lib

namespace RansEncoder

/-- A relation that writes and new states keep, between encoders that answer alike. -/
structure Closed (R : RansEncoder → RansEncoder → Prop) : Prop where
  variant : ∀ {e e'}, R e e' → e.variant = e'.variant
  state : ∀ {e e'}, R e e' → e.state = e'.state
  oom : ∀ {e e'}, R e e' → e.oom = e'.oom
  shut : ∀ {e e'}, R e e' → (e.flushed || e.oom || e.buf.isEmpty) = (e'.flushed || e'.oom || e'.buf.isEmpty)
  write : ∀ {e e' bytes}, R e e' → bytes.length ≤ 4 → R (e.write bytes) (e'.write bytes)
  go : ∀ {e e' x}, R e e' → R { e with state := x } { e' with state := x }

namespace Closed
variable {R : RansEncoder → RansEncoder → Prop} {e e' : RansEncoder} {c : RansCoder}

theorem writeByte (closed : Closed R) (h : R e e') (v : UInt8) : R (e.writeByte v) (e'.writeByte v) :=
  closed.write h (by simp)

theorem writeUnit32 (closed : Closed R) (h : R e e') (v : Nat) : R (e.writeUnit32 v) (e'.writeUnit32 v) :=
  closed.write h (leBytes_length 4 v).le

theorem renormByteLoop (closed : Closed R) (h : R e e') (xMax fuel x : Nat) :
    R (renormByteLoop xMax fuel e x).1 (renormByteLoop xMax fuel e' x).1 ∧
      (renormByteLoop xMax fuel e x).2 = (renormByteLoop xMax fuel e' x).2 := by
  induction fuel generalizing e e' x with
  | zero => exact ⟨h, rfl⟩
  | succ fuel ih =>
    simp only [RansEncoder.renormByteLoop]
    split
    · exact ih (closed.writeByte h _) _
    · exact ⟨h, rfl⟩

theorem renormByte (closed : Closed R) (h : R e e') (xMax : Nat) : R (e.renormByte xMax) (e'.renormByte xMax) := by
  obtain ⟨kept, same⟩ := closed.renormByteLoop h xMax 4 (u32 e.state)
  simp only [RansEncoder.renormByte, ← closed.state h, ← same]
  exact closed.go kept

theorem renorm64 (closed : Closed R) (h : R e e') (xMax : Nat) : R (e.renorm64 xMax) (e'.renorm64 xMax) := by
  simp only [RansEncoder.renorm64, ← closed.state h]
  split
  · exact closed.go (closed.writeUnit32 h _)
  · exact closed.go h

theorem putSym (closed : Closed R) (h : R e e') (s : RansEncSym) : R (e.putSym s) (e'.putSym s) := by
  simp only [RansEncoder.putSym, ← closed.variant h]
  split
  · have kept := closed.renormByte h s.xMaxHi
    simp only [putSymByte, ← closed.state kept]
    exact closed.go kept
  · have kept := closed.renorm64 h (u64 (s.xMaxHi <<< 32))
    simp only [putSym64, ← closed.state kept]
    exact closed.go kept

theorem putRaw (closed : Closed R) (h : R e e') (start freq scaleBits : Nat) :
    R (e.putRaw start freq scaleBits) (e'.putRaw start freq scaleBits) := by
  simp only [RansEncoder.putRaw, ← closed.variant h]
  split
  · have kept := closed.renormByte h (u32 (freq <<< (kByteStateBits - scaleBits)))
    simp only [← closed.state kept]
    exact closed.go kept
  · have kept := closed.renorm64 h (u64 (freq <<< (63 - scaleBits)))
    simp only [← closed.state kept]
    exact closed.go kept

theorem bypass (closed : Closed R) (h : R e e') (v : Nat) : R (e.bypass c v) (e'.bypass c v) := by
  have digits : ∀ l : List Nat, R (l.foldr (fun digit e => e.putRaw digit 1 c.bypassBits) e)
      (l.foldr (fun digit e => e.putRaw digit 1 c.bypassBits) e') := by
    intro l
    induction l with
    | nil => exact h
    | cons digit l ih => exact closed.putRaw ih _ _ _
  have full : ∀ (l : List Nat) {e e'}, R e e' → R (l.foldl (fun e max => e.putRaw max 1 c.bypassBits) e)
      (l.foldl (fun e max => e.putRaw max 1 c.bypassBits) e') := by
    intro l
    induction l with
    | nil => exact fun h => h
    | cons max l ih => exact fun h => ih (closed.putRaw h _ _ _)
  simp only [RansEncoder.bypass]
  exact full _ (closed.putRaw (digits _) _ _ _)

/-- The check that ends each round of `encode`. -/
theorem checkOom (closed : Closed R) (h : R e e') :
    (if e.oom then (Status.nomem, e) else (.ok, e)).1 = (if e'.oom then (Status.nomem, e') else (.ok, e')).1 ∧
      R (if e.oom then (Status.nomem, e) else (.ok, e)).2 (if e'.oom then (Status.nomem, e') else (.ok, e')).2 := by
  rw [← closed.oom h]
  split
  · exact ⟨rfl, h⟩
  · exact ⟨rfl, h⟩

theorem encodeOne (closed : Closed R) (h : R e e') (index value : Int32) :
    (encodeOne c index value e).1 = (encodeOne c index value e').1 ∧
      R (encodeOne c index value e).2 (encodeOne c index value e').2 := by
  simp only [RansEncoder.encodeOne]
  split
  · exact ⟨rfl, h⟩
  split
  · exact closed.checkOom (closed.putSym (closed.bypass h _) _)
  · exact closed.checkOom (closed.putSym h _)

theorem encodeLoop (closed : Closed R) (h : R e e') (indices values : List Int32) :
    (encodeLoop c indices values e).1 = (encodeLoop c indices values e').1 ∧
      R (encodeLoop c indices values e).2 (encodeLoop c indices values e').2 := by
  induction indices generalizing values with
  | nil => exact ⟨rfl, h⟩
  | cons index indices ih =>
    cases values with
    | nil => exact ⟨rfl, h⟩
    | cons value values =>
      obtain ⟨same, kept⟩ := ih values
      simp only [RansEncoder.encodeLoop]
      generalize RansEncoder.encodeLoop c indices values e = r at same kept ⊢
      generalize RansEncoder.encodeLoop c indices values e' = r' at same kept ⊢
      obtain ⟨s, e⟩ := r
      obtain ⟨s', e'⟩ := r'
      obtain rfl : s = s' := same
      cases s with
      | ok => exact closed.encodeOne kept index value
      | _ => exact ⟨rfl, kept⟩

/-- `encode`: the guards agree, then the values are coded one by one. -/
theorem encode (closed : Closed R) (h : R e e') (indices values : List Int32) :
    (encode c indices values e).1 = (encode c indices values e').1 ∧
      R (encode c indices values e).2 (encode c indices values e').2 := by
  simp only [RansEncoder.encode, ← closed.shut h]
  split
  · exact ⟨rfl, h⟩
  split
  · exact ⟨rfl, h⟩
  split
  · exact ⟨rfl, h⟩
  · exact closed.encodeLoop h indices values

end Closed

/-! ## The end of a stream -/

/-- What `flush` writes: the state, highest unit first. -/
def finish (e : RansEncoder) : RansEncoder :=
  match e.variant with
  | .byte =>
    let x := u32 e.state
    (((e.writeByte (UInt8.ofNat (x >>> 24))).writeByte (UInt8.ofNat (x >>> 16))).writeByte
      (UInt8.ofNat (x >>> 8))).writeByte (UInt8.ofNat x)
  | .rans64 =>
    let x := e.state
    (e.writeUnit32 (u32 (x >>> 32))).writeUnit32 (u32 x)

theorem flush_eq (e : RansEncoder) :
    e.flush =
      if e.flushed || e.oom || e.buf.isEmpty then (.invalid, [], e)
      else if e.finish.oom then (.nomem, [], e.finish)
      else (.ok, e.finish.content, { e.finish with flushed := true }) := rfl

theorem Closed.finish {R : RansEncoder → RansEncoder → Prop} {e e' : RansEncoder} (closed : Closed R) (h : R e e') :
    R e.finish e'.finish := by
  simp only [RansEncoder.finish, ← closed.variant h, ← closed.state h]
  split
  · exact closed.writeByte (closed.writeByte (closed.writeByte (closed.writeByte h _) _) _) _
  · exact closed.writeUnit32 (closed.writeUnit32 h _) _

/-! ## Buffers of any size -/

/-- Two open encoders that differ in their buffers only: the bytes written are the same. -/
structure Same (e e' : RansEncoder) : Prop where
  left : e.Open
  right : e'.Open
  variant : e.variant = e'.variant
  state : e.state = e'.state
  content : e.content = e'.content

theorem same_closed : Closed Same where
  variant h := h.variant
  state h := h.state
  oom h := h.left.oom.trans h.right.oom.symm
  shut h := h.left.ready.trans h.right.ready.symm
  write h short := by
    obtain ⟨left, content, state, variant⟩ := write_spec h.left (short.trans (by decide))
    obtain ⟨right, content', state', variant'⟩ := write_spec h.right (short.trans (by decide))
    exact ⟨left, right, by rw [variant, variant', h.variant], by rw [state, state', h.state],
      by rw [content, content', h.content]⟩
  go h := ⟨h.left.with_state _, h.right.with_state _, h.variant, rfl, h.content⟩

/-- `flush` answers alike, with the same bytes. -/
theorem Same.flush {e e' : RansEncoder} (h : Same e e') :
    e.flush.1 = .ok ∧ e'.flush.1 = .ok ∧ e.flush.2.1 = e'.flush.2.1 := by
  have finished := same_closed.finish h
  simp only [flush_eq, h.left.ready, h.right.ready, finished.left.oom, finished.right.oom, finished.content,
    Bool.false_eq_true, if_false, and_self]

/-! ## The moments of a run -/

/-- The states of an encoder's runs, between any two writes: also those in the middle
of a call. -/
inductive Moment (v : RansVariant) : RansEncoder → Prop
  | new (capacity : Nat) : Moment v (.new v capacity)
  | write {e : RansEncoder} (bytes : List UInt8) (short : bytes.length ≤ 4) : Moment v e → Moment v (e.write bytes)
  | state {e : RansEncoder} (x : Nat) : Moment v e → Moment v { e with state := x }
  | flushed {e : RansEncoder} : Moment v e → Moment v { e with flushed := true }
  | reset {e : RansEncoder} : Moment v e → Moment v e.reset

/-- `grow` and `write` do not look at the flag of `flush`. -/
theorem grow_flag (e : RansEncoder) (b : Bool) :
    { e with flushed := b }.grow = (e.grow.1, { e.grow.2 with flushed := b }) := by
  simp only [grow]
  split
  · rfl
  generalize (if e.buf.length * 2 < e.buf.length + 65536 then e.buf.length + 65536 else e.buf.length * 2) = ncap
  by_cases full : ncap ≤ e.buf.length
  · simp only [if_pos full]
  · simp only [if_neg full]

theorem write_flag (e : RansEncoder) (bytes : List UInt8) (b : Bool) :
    { e with flushed := b }.write bytes = { e.write bytes with flushed := b } := by
  simp only [write, grow_flag]
  split
  · rfl
  by_cases full : e.ptr < bytes.length
  · simp only [full, if_true]
    split
    · rfl
    · rfl
  · simp only [full, if_false]
    rfl

/-- At every moment the encoder is open, but for the flag of `flush`. -/
theorem Moment.held {v : RansVariant} {e : RansEncoder} (h : Moment v e) :
    e.variant = v ∧ { e with flushed := false }.Open := by
  induction h with
  | new capacity => exact ⟨rfl, new_open v capacity⟩
  | write bytes short _ ih =>
    obtain ⟨variant, held⟩ := ih
    obtain ⟨written, -, -, same⟩ := write_spec held (short.trans (by decide))
    rw [write_flag] at written same
    exact ⟨same.trans variant, written⟩
  | state x _ ih => exact ⟨ih.1, ih.2.with_state x⟩
  | flushed _ ih => exact ih
  | reset _ ih => exact ⟨ih.1, ih.2.oom, rfl, ih.2.buf, Nat.le_refl _⟩

theorem moment_closed (v : RansVariant) : Closed fun e e' => e = e' ∧ Moment v e where
  variant h := by rw [h.1]
  state h := by rw [h.1]
  oom h := by rw [h.1]
  shut h := by rw [h.1]
  write h short := ⟨by rw [h.1], h.2.write _ short⟩
  go h := ⟨by rw [h.1], h.2.state _⟩

/-- The calls that fill an encoder's stream. -/
inductive Use where
  | encode (call : EncodeCall)
  | flush

def Use.apply : Use → RansEncoder → RansEncoder
  | .encode call, e => call.run e
  | .flush, e => e.flush.2.2

theorem Moment.run {v : RansVariant} {e : RansEncoder} (h : Moment v e) (call : EncodeCall) : Moment v (call.run e) :=
  ((moment_closed v).encode ⟨rfl, h⟩ call.indices call.values).2.2

theorem Moment.apply {v : RansVariant} {e : RansEncoder} (h : Moment v e) (use : Use) : Moment v (use.apply e) := by
  cases use with
  | encode call => exact h.run call
  | flush =>
    have finished : Moment v e.finish := ((moment_closed v).finish ⟨rfl, h⟩).2
    simp only [Use.apply, flush_eq]
    split
    · exact h
    split
    · exact finished
    · exact finished.flushed

theorem Moment.applyAll {v : RansVariant} {e : RansEncoder} (h : Moment v e) (uses : List Use) :
    Moment v (uses.foldl (fun e use => use.apply e) e) := by
  induction uses generalizing e with
  | nil => exact h
  | cons use uses ih => exact ih (h.apply use)

/-- An encoder with a past: each part of it is a series of calls, then `reset`. A
fresh encoder has none. -/
def prepare (v : RansVariant) (capacity : Nat) (past : List (List Use)) : RansEncoder :=
  past.foldl (fun e uses => (uses.foldl (fun e use => use.apply e) e).reset) (new v capacity)

theorem prepare_moment (v : RansVariant) (capacity : Nat) (past : List (List Use)) :
    Moment v (prepare v capacity past) := by
  have parts : ∀ (past : List (List Use)) {e : RansEncoder}, Moment v e →
      Moment v (past.foldl (fun e uses => (uses.foldl (fun e use => use.apply e) e).reset) e) := by
    intro past
    induction past with
    | nil => exact fun h => h
    | cons uses past ih => exact fun h => ih (h.applyAll uses).reset
  exact parts past (.new capacity)

/-- A reset encoder of any past is an encoder that has written nothing. -/
theorem prepare_same (v : RansVariant) (capacity capacity' : Nat) (past past' : List (List Use)) :
    Same (prepare v capacity past) (prepare v capacity' past') := by
  have blank : ∀ (capacity : Nat) (past : List (List Use)), (prepare v capacity past).Open ∧
      (prepare v capacity past).state = v.lower ∧ (prepare v capacity past).content = [] := by
    intro capacity past
    rcases List.eq_nil_or_concat past with rfl | ⟨before, uses, rfl⟩
    · exact ⟨new_open v capacity, new_state v capacity, new_content v capacity⟩
    · have last : ∃ e, Moment v e ∧ prepare v capacity (before ++ [uses]) = e.reset := by
        simp only [prepare, List.foldl_append, List.foldl_cons, List.foldl_nil]
        exact ⟨_, Moment.applyAll (prepare_moment v capacity before) uses, rfl⟩
      obtain ⟨e, moment, last⟩ := last
      obtain ⟨variant, held⟩ := moment.held
      rw [List.concat_eq_append, last]
      exact ⟨moment.reset.held.2, by rw [← variant]; rfl, List.drop_length⟩
  obtain ⟨left, state, content⟩ := blank capacity past
  obtain ⟨right, state', content'⟩ := blank capacity' past'
  exact ⟨left, right, (prepare_moment v capacity past).held.1.trans (prepare_moment v capacity' past').held.1.symm,
    state.trans state'.symm, content.trans content'.symm⟩

/-! ## Growing -/

/-- A written byte, counted from the end of the buffer. -/
theorem content_from_end {e : RansEncoder} {k : Nat} (inside : e.ptr ≤ e.buf.length)
    (written : k < e.content.length) :
    e.buf[e.buf.length - 1 - k]? = e.content[e.content.length - 1 - k]? := by
  have length : e.content.length = e.buf.length - e.ptr := List.length_drop
  rw [length] at written ⊢
  rw [content, List.getElem?_drop]
  congr 1
  omega

/-- **Growing keeps every byte at its distance from the end.** -/
theorem Moment.grow {v : RansVariant} {e : RansEncoder} (h : Moment v e) :
    ∃ g, e.grow = (true, g) ∧ g.content = e.content ∧
      ∀ k < e.content.length, g.buf[g.buf.length - 1 - k]? = e.buf[e.buf.length - 1 - k]? := by
  obtain ⟨-, held⟩ := h.held
  obtain ⟨g, grown, held', content, -, -, -⟩ := grow_spec held
  rw [grow_flag] at grown
  obtain ⟨done, rfl⟩ := Prod.mk.inj grown
  have same : e.grow.2.content = e.content := content
  refine ⟨e.grow.2, Prod.ext done rfl, same, fun k written => ?_⟩
  have before : e.buf[e.buf.length - 1 - k]? = e.content[e.content.length - 1 - k]? :=
    content_from_end held.ptr written
  have after : e.grow.2.buf[e.grow.2.buf.length - 1 - k]? = e.grow.2.content[e.grow.2.content.length - 1 - k]? :=
    content_from_end held'.ptr (same ▸ written)
  rw [after, before, same]

/-- Between two calls growing cannot be seen. -/
theorem Open.grow_same {e : RansEncoder} (h : e.Open) : Same e.grow.2 e := by
  obtain ⟨g, grown, opened, content, state, variant, -⟩ := grow_spec h
  rw [grown]
  exact ⟨opened, h, variant, state, content⟩

/-- `grow`'s new size, computed in a `size_t` of `w` bits. -/
def growSize (w cap : Nat) : Nat :=
  let ncap := cap * 2 % 2 ^ w
  if ncap < (cap + 65536) % 2 ^ w then (cap + 65536) % 2 ^ w else ncap

/-- A vector holds less than half the range of `size_t`, so the sizes of `grow` do
not wrap around. -/
theorem grow_growSize {w : Nat} {e g : RansEncoder} (word : 17 ≤ w) (vector : e.buf.length < 2 ^ (w - 1))
    (grown : e.grow = (true, g)) (inside : e.ptr ≤ e.buf.length) : g.buf.length = growSize w e.buf.length := by
  have wide : 2 ^ 16 ≤ 2 ^ (w - 1) := Nat.pow_le_pow_right (by decide) (by omega)
  have whole : 2 ^ w = 2 ^ (w - 1) * 2 := by rw [← Nat.pow_succ]; congr 1; omega
  have size : growSize w e.buf.length =
      if e.buf.length * 2 < e.buf.length + 65536 then e.buf.length + 65536 else e.buf.length * 2 := by
    simp only [growSize]
    rw [Nat.mod_eq_of_lt (by omega), Nat.mod_eq_of_lt (by omega)]
  rw [size]
  simp only [RansEncoder.grow] at grown
  split at grown
  · cases grown
  generalize (if e.buf.length * 2 < e.buf.length + 65536 then e.buf.length + 65536 else e.buf.length * 2) = ncap
    at grown ⊢
  split at grown
  · cases grown
  · obtain rfl := (Prod.mk.inj grown).2
    simp only [List.length_append, List.length_replicate, List.length_drop]
    omega

/-! ## Streams -/

/-- The statuses of the calls of a stream. -/
def statuses : List EncodeCall → RansEncoder → List Status
  | [], _ => []
  | call :: calls, e => (e.encode call.coder call.indices call.values).1 :: statuses calls (call.run e)

theorem Same.encodeAll {e e' : RansEncoder} (h : Same e e') (calls : List EncodeCall) :
    statuses calls e = statuses calls e' ∧ Same (encodeAll calls e) (encodeAll calls e') := by
  induction calls generalizing e e' with
  | nil => exact ⟨rfl, h⟩
  | cons call calls ih =>
    obtain ⟨answer, after⟩ := same_closed.encode (c := call.coder) h call.indices call.values
    obtain ⟨answers, rest⟩ := ih after
    exact ⟨List.cons_eq_cons.2 ⟨answer, answers⟩, rest⟩

/-- **The bytes of a stream do not depend on the buffer**: not on the capacity the
encoder was made with, nor on what it was used for before a `reset`, nor on where
the buffer grows. -/
theorem flush_bytes_same (v : RansVariant) (segments : List EncodeCall) :
    (∀ capacity capacity' past past',
      statuses segments (prepare v capacity past) = statuses segments (prepare v capacity' past') ∧
        (encodeAll segments (prepare v capacity past)).flush.1 = .ok ∧
        (encodeAll segments (prepare v capacity' past')).flush.1 = .ok ∧
        (encodeAll segments (prepare v capacity past)).flush.2.1 =
          (encodeAll segments (prepare v capacity' past')).flush.2.1) ∧
      ∀ e, Moment v e →
        (∃ g, e.grow = (true, g) ∧ g.content = e.content ∧
          ∀ k < e.content.length, g.buf[g.buf.length - 1 - k]? = e.buf[e.buf.length - 1 - k]?) ∧
        (e.flushed = false → (encodeAll segments e.grow.2).flush.2.1 = (encodeAll segments e).flush.2.1) := by
  refine ⟨fun capacity capacity' past past' => ?_, fun e moment => ⟨moment.grow, fun unflushed => ?_⟩⟩
  · obtain ⟨answers, same⟩ := (prepare_same v capacity capacity' past past').encodeAll segments
    exact ⟨answers, same.flush⟩
  · obtain ⟨-, held⟩ := moment.held
    have opened : e.Open := ⟨held.oom, unflushed, held.buf, held.ptr⟩
    exact (opened.grow_same.encodeAll segments).2.flush.2.2

/-- A fresh encoder against one that was filled, flushed and reset, and the growth of
a buffer of one written byte. -/
theorem flush_bytes_same_sample :
    (encodeAll [⟨sampleCoder, [0, -1, 5], [0, 7, 90]⟩] (prepare .byte 0 [])).flush.2.1 =
        (encodeAll [⟨sampleCoder, [0, -1, 5], [0, 7, 90]⟩]
          (prepare .byte 9000 [[.encode ⟨sampleCoder, [0], [-40]⟩, .flush]])).flush.2.1 ∧
      (∃ g, (writeByte (new .byte 0) 7).grow = (true, g) ∧ g.content = (writeByte (new .byte 0) 7).content) ∧
      (encodeAll [] (writeByte (new .byte 0) 7).grow.2).flush.2.1 =
        (encodeAll [] (writeByte (new .byte 0) 7)).flush.2.1 := by
  have moment : Moment .byte (writeByte (new .byte 0) 7) := .write [7] (by decide) (.new 0)
  have opened : (writeByte (new .byte 0) 7).Open := (write_spec (new_open .byte 0) (by decide)).1
  obtain ⟨⟨g, grown, content, -⟩, later⟩ := (flush_bytes_same .byte []).2 _ moment
  exact ⟨((flush_bytes_same .byte _).1 0 9000 [] _).2.2.2, ⟨g, grown, content⟩, later opened.flushed⟩

end RansEncoder

end Rkvc.Mlvc
