import Rkvc.Mlvc.Rans.Events

/-!
# The decoder on arbitrary bytes

Whatever the data is, every event of a session is in its bounds (`Event.Safe`):
bytes are read within the data, cdf entries within the segment of the selected
distribution, the state stays in its interval, digit counts stay within the
word, and no loop ends for want of fuel. A request that succeeds needs every
byte it has passed.
-/

namespace Rkvc.Mlvc
set_option autoImplicit false
open Lib

/-- The width of the decoder's state. -/
def RansVariant.wordBits : RansVariant → Nat
  | byte => 32
  | rans64 => 64

/-- The decoder's interval: from the lower bound on, within the word. -/
def RansVariant.Word (v : RansVariant) (x : Nat) : Prop := v.lower ≤ x ∧ x < 2 ^ v.wordBits

namespace RansDecoder

/-- The bounds of an event in a decoder over `size` bytes. -/
def Event.Safe (v : RansVariant) (size : Nat) : Event → Prop
  | .byte index => index < size
  | .cdf c desc index =>
    desc ∈ c.dists ∧ index < desc.bypassSentinel + 2 ∧ desc.decCdfOffset + index < c.cdfTable.length
  | .advanced x => v.Word x
  | .digits c count => count ≤ 32 / c.bypassBits
  | .spent => False

/-- A decoder that stands in the data. -/
structure Within (v : RansVariant) (data : List UInt8) (d : RansDecoder) : Prop where
  variant : d.variant = v
  bytes : d.data = data
  inside : d.pos ≤ data.length

/-- A decoder that stands in the data with its state in the interval. -/
abbrev Held (v : RansVariant) (data : List UInt8) (d : RansDecoder) : Prop := Within v data d ∧ v.Word d.state

namespace Noted
variable {v : RansVariant} {data : List UInt8}

/-- An operation that keeps what `P` says of the decoder, by safe events. -/
abbrev Keeps (v : RansVariant) (data : List UInt8) (P : RansDecoder → Prop) {α : Type} (op : Step α) : Prop :=
  Act.Triple (Event.Safe v data.length) P op (fun _ => P) P

/-! ## The reads -/

section Reads
variable {P : RansDecoder → Prop} (stable : ∀ d pos, P d → P { d with pos := pos })
include stable

/-- A byte read comes nearer to the end. -/
theorem readByte_safe (left : Nat) :
    Act.Triple (Event.Safe v data.length) (fun d => (Within v data d ∧ P d) ∧ data.length - d.pos < left + 1) readByte
      (fun u d => ((Within v data d ∧ P d) ∧ data.length - d.pos < left) ∧ u < 2 ^ 8)
      (fun d => Within v data d ∧ P d) := by
  rintro d ⟨⟨within, kept⟩, room⟩
  obtain ⟨variant, bytes, inside⟩ := within
  unfold readByte
  split
  · exact ⟨fun _ mem => absurd mem List.not_mem_nil, ⟨variant, bytes, inside⟩, kept⟩
  · rename_i less
    rw [bytes] at less
    constructor
    · intro e mem
      rw [List.mem_singleton.1 mem]
      exact Nat.lt_of_not_le less
    · refine ⟨⟨⟨⟨variant, bytes, ?_⟩, stable d _ kept⟩, ?_⟩, UInt8.toNat_lt _⟩ <;> dsimp only <;> omega

theorem readUnit32_safe :
    Act.Triple (Event.Safe v data.length) (fun d => Within v data d ∧ P d) readUnit32
      (fun u d => (Within v data d ∧ P d) ∧ u < 2 ^ 32) (fun d => Within v data d ∧ P d) := by
  rintro d ⟨within, kept⟩
  obtain ⟨variant, bytes, inside⟩ := within
  unfold readUnit32
  split
  · exact ⟨fun _ mem => absurd mem List.not_mem_nil, ⟨variant, bytes, inside⟩, kept⟩
  · rename_i less
    rw [bytes] at less
    have room : d.pos + 4 ≤ data.length := by omega
    have bound : leVal ((d.data.drop d.pos).take 4) < 2 ^ 32 := by
      have len : ((d.data.drop d.pos).take 4).length = 4 := by
        rw [List.length_take, List.length_drop, bytes]
        omega
      have word := leVal_lt ((d.data.drop d.pos).take 4)
      rwa [len] at word
    constructor
    · intro e mem
      simp only [List.mem_cons, List.not_mem_nil, or_false] at mem
      rcases mem with rfl | rfl | rfl | rfl <;> simp only [Event.Safe] <;> omega
    · exact ⟨⟨⟨variant, bytes, room⟩, stable d _ kept⟩, bound⟩

theorem readUnit_safe :
    Act.Triple (Event.Safe v data.length) (fun d => Within v data d ∧ P d) readUnit
      (fun u d => (Within v data d ∧ P d) ∧ u < 2 ^ (8 * v.unitBytes)) (fun d => Within v data d ∧ P d) := by
  apply Act.Triple.look
  intro d pre
  rw [pre.1.variant]
  cases v with
  | byte =>
    apply (readByte_safe stable data.length).mono
    · rintro d rfl
      exact ⟨pre, by omega⟩
    · exact fun _ _ post => ⟨post.1.1, post.2⟩
    · exact fun _ left => left
  | rans64 =>
    apply (readUnit32_safe stable).pre
    rintro d rfl
    exact pre

/-- The units that are read fill the word from below. -/
theorem initLoop_safe (n : Nat) :
    ∀ i x, x < 2 ^ (8 * v.unitBytes * i) →
      Act.Triple (Event.Safe v data.length) (fun d => Within v data d ∧ P d) (initLoop (8 * v.unitBytes) n i x)
        (fun z d => (Within v data d ∧ P d) ∧ z < 2 ^ (8 * v.unitBytes * (i + n))) (fun d => Within v data d ∧ P d) := by
  induction n with
  | zero => exact fun _ _ bound => Act.Triple.pure fun _ pre => ⟨pre, bound⟩
  | succ n ih =>
    intro i x bound
    apply (readUnit_safe stable).bind
    rintro u d ⟨pre, unit⟩
    have next : x + u <<< (i * (8 * v.unitBytes)) < 2 ^ (8 * v.unitBytes * (i + 1)) := by
      rw [Nat.shiftLeft_eq, Nat.mul_comm i, Nat.mul_succ, Nat.pow_add]
      have scaled := Nat.mul_le_mul_right (2 ^ (8 * v.unitBytes * i)) (Nat.succ_le_of_lt unit)
      rw [Nat.succ_mul, Nat.mul_comm (2 ^ (8 * v.unitBytes))] at scaled
      omega
    have step := ih (i + 1) _ next d pre
    rwa [show i + 1 + n = i + (n + 1) by omega] at step

theorem initWord_safe :
    Act.Triple (Event.Safe v data.length) (fun d => Within v data d ∧ P d) initWord
      (fun z d => (Within v data d ∧ P d) ∧ z < 2 ^ v.wordBits) (fun d => Within v data d ∧ P d) := by
  apply Act.Triple.look
  intro d pre
  rw [pre.1.variant]
  cases v with
  | byte =>
    apply (initLoop_safe (v := .byte) stable 4 0 0 (by decide)).pre
    exact fun _ same => same ▸ pre
  | rans64 =>
    apply (initLoop_safe (v := .rans64) stable 2 0 0 (by decide)).pre
    exact fun _ same => same ▸ pre

/-- **The loop ends before its fuel**: a round reads one of the bytes left. -/
theorem refillByte_safe (fuel : Nat) :
    ∀ x, x < 2 ^ 32 →
      Act.Triple (Event.Safe v data.length) (fun d => (Within v data d ∧ P d) ∧ data.length - d.pos < fuel)
        (refillByte fuel x) (fun z d => (Within v data d ∧ P d) ∧ kByteLower ≤ z ∧ z < 2 ^ 32)
        (fun d => Within v data d ∧ P d) := by
  induction fuel with
  | zero =>
    intro x _ d pre
    exact absurd pre.2 (Nat.not_lt_zero _)
  | succ fuel ih =>
    intro x word
    apply Act.Triple.ite
    · intro low
      apply (readByte_safe stable fuel).bind
      intro u
      apply (ih _ (u32_lt _)).pre
      exact fun _ pre => pre.1
    · intro high
      apply Act.Triple.pure
      exact fun d pre => ⟨pre.1, Nat.le_of_not_lt high, word⟩

end Reads

/-! ## Advancing -/

theorem setState_safe {x : Nat} (word : v.Word x) :
    Act.Triple (Event.Safe v data.length) (Within v data) (setState x) (fun _ => Held v data) (Held v data) := by
  rintro d ⟨variant, bytes, inside⟩
  constructor
  · intro e mem
    rw [List.mem_singleton.1 mem]
    exact word
  · exact ⟨⟨variant, bytes, inside⟩, word⟩

/-- A word can be refilled into the interval: on the byte variant any, else not zero. -/
def Refillable (v : RansVariant) (x : Nat) : Prop := x < 2 ^ v.wordBits ∧ (v = .rans64 → 0 < x)

theorem word_stable (d : RansDecoder) (pos : Nat) (word : v.Word d.state) :
    v.Word ({ d with pos := pos } : RansDecoder).state := word

theorem refillFrom_safe {x : Nat} (ready : Refillable v x) : Keeps v data (Held v data) (refillFrom x) := by
  apply Act.Triple.look
  rintro d ⟨within, word⟩
  rw [within.variant]
  have start : ∀ d', d' = d → Held v data d' := fun d' same => same ▸ ⟨within, word⟩
  cases v with
  | byte =>
    have loop : Act.Triple (Event.Safe .byte data.length)
        (fun d' => Held .byte data d' ∧ data.length - d'.pos < d.data.length - d.pos + 1)
        (refillByte (d.data.length - d.pos + 1) x) (fun z d' => Held .byte data d' ∧ kByteLower ≤ z ∧ z < 2 ^ 32)
        (Held .byte data) := refillByte_safe word_stable _ x ready.1
    have stored : ∀ z, Act.Triple (Event.Safe .byte data.length)
        (fun d => Held .byte data d ∧ kByteLower ≤ z ∧ z < 2 ^ 32) (setState z) (fun _ => Held .byte data)
        (Held .byte data) := by
      intro z d pre
      exact setState_safe (v := .byte) ⟨pre.2.1, pre.2.2⟩ d pre.1.1
    apply (loop.bind stored).pre
    rintro d' rfl
    rw [within.bytes]
    exact ⟨⟨within, word⟩, Nat.lt_succ_self _⟩
  | rans64 =>
    have positive := ready.2 rfl
    have small : x < 2 ^ 64 := ready.1
    apply Act.Triple.ite
    · intro low
      have below : x < 2 ^ 31 := low
      have stored : ∀ u, Act.Triple (Event.Safe .rans64 data.length) (fun d => Held .rans64 data d ∧ u < 2 ^ 32)
          (setState (u64 (u64 (x <<< 32) + u))) (fun _ => Held .rans64 data) (Held .rans64 data) := by
        rintro u d ⟨pre, unit⟩
        have next : u64 (u64 (x <<< 32) + u) = x * 2 ^ 32 + u := by
          rw [Nat.shiftLeft_eq, u64_of_lt (n := x * 2 ^ 32) (by omega), u64_of_lt (by omega)]
        have bounds : RansVariant.Word .rans64 (u64 (u64 (x <<< 32) + u)) := by
          rw [next]
          constructor
          · change 1 <<< 31 ≤ _
            rw [Nat.one_shiftLeft]
            omega
          · change _ < 2 ^ 64
            omega
        exact setState_safe bounds d pre.1
      exact ((readUnit32_safe (word_stable (v := .rans64))).bind stored).pre start
    · intro high
      apply (setState_safe ⟨Nat.le_of_not_lt high, small⟩).pre
      exact fun d' same => (start d' same).1

/-- The symbol the state shows lies in the range that is taken off. -/
def Shown (d : RansDecoder) (start freq scaleBits : Nat) : Prop :=
  start ≤ d.get scaleBits ∧ d.get scaleBits < start + freq

theorem advanceWord_refillable {d : RansDecoder} {start freq bits : Nat} (held : Held v data d) (hb : bits ≤ 31)
    (hf : freq ≤ 2 ^ bits) (shown : Shown d start freq bits) : Refillable v (d.advanceWord start freq bits) := by
  unfold advanceWord
  rw [held.1.variant]
  cases v with
  | byte => exact ⟨u32_lt _, fun bad => by cases bad⟩
  | rans64 =>
    obtain ⟨above, below⟩ := shown
    have lower : 2 ^ 31 ≤ d.state := by
      have low := held.2.1
      change 1 <<< 31 ≤ _ at low
      rwa [Nat.one_shiftLeft] at low
    have word : d.state < 2 ^ 64 := held.2.2
    have value : d.get bits = d.state % 2 ^ bits := by
      unfold get
      rw [and_scale hb, u32_mod_scale hb]
    rw [value] at above below
    have scale : 2 ^ bits ≤ 2 ^ 31 := Nat.pow_le_pow_right (by decide) hb
    have low_bits : u32 (d.state % 2 ^ bits) = d.state % 2 ^ bits := by
      have bound := Nat.mod_lt d.state (Nat.two_pow_pos bits)
      exact u32_of_lt (by omega)
    have quot_pos : 1 ≤ d.state / 2 ^ bits := (Nat.one_le_div_iff (Nat.two_pow_pos bits)).2 (by omega)
    have quot_lt : d.state / 2 ^ bits + 1 ≤ 2 ^ (64 - bits) := by
      apply Nat.succ_le_of_lt
      apply Nat.div_lt_of_lt_mul
      rw [← Nat.pow_add, show bits + (64 - bits) = 64 by omega]
      exact word
    have product : freq * (d.state / 2 ^ bits) + freq ≤ 2 ^ 64 := by
      calc freq * (d.state / 2 ^ bits) + freq = freq * (d.state / 2 ^ bits + 1) := by rw [Nat.mul_add, Nat.mul_one]
        _ ≤ 2 ^ bits * 2 ^ (64 - bits) := Nat.mul_le_mul hf quot_lt
        _ = 2 ^ 64 := by rw [← Nat.pow_add, show bits + (64 - bits) = 64 by omega]
    have first : freq ≤ freq * (d.state / 2 ^ bits) := Nat.le_mul_of_pos_right freq quot_pos
    dsimp only
    rw [and_scale hb, low_bits, Nat.shiftRight_eq_div_pow]
    have exact_word : u64 (freq * (d.state / 2 ^ bits) + d.state % 2 ^ bits + (2 ^ 64 - start)) =
        freq * (d.state / 2 ^ bits) + d.state % 2 ^ bits - start := by
      unfold u64
      omega
    rw [exact_word]
    constructor
    · change _ < 2 ^ 64
      omega
    · intro _
      omega

theorem advance_safe {start freq bits : Nat} (hb : bits ≤ 31) (hf : freq ≤ 2 ^ bits) :
    Act.Triple (Event.Safe v data.length) (fun d => Held v data d ∧ Shown d start freq bits)
      (advance start freq bits) (fun _ => Held v data) (Held v data) := by
  apply Act.Triple.look
  rintro d ⟨held, shown⟩
  apply (refillFrom_safe (advanceWord_refillable held hb hf shown)).pre
  exact fun d' same => same ▸ held

theorem take_safe {bits : Nat} (hb : bits ≤ 31) : Keeps v data (Held v data) (take bits) := by
  apply Act.Triple.look
  intro d held
  have shown : Shown d (d.get bits) 1 bits := ⟨Nat.le_refl _, Nat.lt_succ_self _⟩
  have taken : Act.Triple (Event.Safe v data.length) (fun d' => Held v data d' ∧ Shown d' (d.get bits) 1 bits)
      ((advance (d.get bits) 1 bits).bind fun _ => Act.pure (d.get bits)) (fun _ => Held v data) (Held v data) :=
    (advance_safe hb (Nat.two_pow_pos bits)).bind fun _ => Act.Triple.pure fun _ post => post
  apply taken.pre
  rintro d' rfl
  exact ⟨held, shown⟩

/-! ## The bypass code -/

section Bypass
variable {c : RansCoder}

theorem bypassBits_le (valid : c.Valid) : c.bypassBits ≤ 31 :=
  Nat.le_trans valid.bypass_hi (maxScale_le c.variant)

/-- **The count ends before its fuel**: a full step adds to the count, and the count is bounded. -/
theorem countLoop_safe (valid : c.Valid) (maxDigits fuel : Nat) :
    ∀ value count, count ≤ maxDigits → (value = c.bypassMax → maxDigits < count + fuel) →
      Act.Triple (Event.Safe v data.length) (Held v data) (countLoop c maxDigits fuel value count)
        (fun n d => Held v data d ∧ n ≤ maxDigits) (Held v data) := by
  have max := bypassMax_pos valid
  induction fuel with
  | zero =>
    intro value count bound room
    have stopped : ¬value = c.bypassMax := by
      intro full
      have more := room full
      omega
    unfold countLoop
    rw [if_neg stopped]
    apply Act.Triple.after_note (fun _ mem => absurd mem List.not_mem_nil)
    exact Act.Triple.pure fun d held => ⟨held, bound⟩
  | succ fuel ih =>
    intro value count bound room
    apply Act.Triple.ite
    · intro full
      have left := room full
      apply (take_safe (bypassBits_le valid)).bind
      intro next
      apply Act.Triple.ite
      · exact fun _ => Act.Triple.fail fun _ held => held
      · intro small
        apply ih
        · omega
        · intro again
          omega
    · exact fun _ => Act.Triple.pure fun d held => ⟨held, bound⟩

theorem digitLoop_safe (valid : c.Valid) (n : Nat) :
    ∀ shift encoded, Keeps v data (Held v data) (digitLoop c n shift encoded) := by
  induction n with
  | zero => exact fun _ _ => Act.Triple.pure fun _ held => held
  | succ n ih => exact fun _ _ => (take_safe (bypassBits_le valid)).bind fun _ => ih _ _

theorem bypassCount_safe (valid : c.Valid) :
    Act.Triple (Event.Safe v data.length) (Held v data) (bypassCount c)
      (fun n d => Held v data d ∧ n ≤ 32 / c.bypassBits) (Held v data) := by
  apply (take_safe (bypassBits_le valid)).bind
  intro value
  apply Act.Triple.ite
  · exact fun _ => Act.Triple.fail fun _ held => held
  · intro small
    apply countLoop_safe valid
    · omega
    · intro _
      omega

theorem bypass_safe (valid : c.Valid) : Keeps v data (Held v data) (bypass c) := by
  apply (bypassCount_safe valid).bind
  rintro count d ⟨held, bound⟩
  have noted : ∀ e ∈ [Event.digits c count], e.Safe v data.length := by
    intro e mem
    rw [List.mem_singleton.1 mem]
    exact bound
  exact Act.Triple.after_note noted (digitLoop_safe valid count 0 0) d held

end Bypass

/-! ## One symbol -/

section Symbol
variable {c : RansCoder} {desc : RansDist} {freqs : List Nat}

/-- What the search leaves: the symbol whose range holds `cum`, when it is one. -/
def Found (c : RansCoder) (desc : RansDist) (cum symbol : Nat) : Prop :=
  symbol ≤ desc.bypassSentinel →
    (symbol = 0 ∨ (c.cdfTable.drop desc.decCdfOffset).getD symbol 0 ≤ cum) ∧
      cum < (c.cdfTable.drop desc.decCdfOffset).getD (symbol + 1) 0

/-- **The search stays in the segment** and ends before its fuel: a round narrows the interval. -/
theorem search_safe {P F : RansDecoder → Prop}
    (entry : ∀ i, i < desc.bypassSentinel + 2 → Event.Safe v data.length (.cdf c desc i)) (cum fuel : Nat) :
    ∀ lo hi, lo ≤ hi → hi ≤ desc.bypassSentinel + 1 → hi - lo ≤ fuel →
      (lo = 0 ∨ (c.cdfTable.drop desc.decCdfOffset).getD lo 0 ≤ cum) →
      (hi = desc.bypassSentinel + 1 ∨ cum < (c.cdfTable.drop desc.decCdfOffset).getD (hi + 1) 0) →
      Act.Triple (Event.Safe v data.length) P (search c desc cum fuel lo hi)
        (fun symbol d => P d ∧ Found c desc cum symbol) F := by
  have ends : ∀ lo hi, lo ≤ hi → ¬lo < hi → (lo = 0 ∨ (c.cdfTable.drop desc.decCdfOffset).getD lo 0 ≤ cum) →
      (hi = desc.bypassSentinel + 1 ∨ cum < (c.cdfTable.drop desc.decCdfOffset).getD (hi + 1) 0) →
      Found c desc cum lo := by
    intro lo hi order done below above symbol
    obtain rfl : lo = hi := by omega
    refine ⟨below, ?_⟩
    rcases above with last | above
    · omega
    · exact above
  induction fuel with
  | zero =>
    intro lo hi order _ enough below above
    have done : ¬lo < hi := by omega
    unfold search
    rw [if_neg done]
    apply Act.Triple.after_note (fun _ mem => absurd mem List.not_mem_nil)
    exact Act.Triple.pure fun d pre => ⟨pre, ends lo hi order done below above⟩
  | succ fuel ih =>
    intro lo hi order within enough below above
    apply Act.Triple.ite
    · intro more
      apply Act.Triple.after_note
      · intro e mem
        rw [List.mem_singleton.1 mem]
        apply entry
        omega
      · apply Act.Triple.ite
        · intro left
          apply ih _ _ (by omega) within (by omega) _ above
          exact Or.inr left
        · intro right
          apply ih _ _ (by omega) (by omega) (by omega) below
          exact Or.inr (Nat.lt_of_not_le right)
    · intro done
      exact Act.Triple.pure fun d pre => ⟨pre, ends lo hi order done below above⟩

/-- Every entry of a segment is in the table. -/
theorem segment_entry (mem : desc ∈ c.dists) (seg : c.Segment desc freqs) (i : Nat) (hi : i < desc.bypassSentinel + 2) :
    Event.Safe v data.length (.cdf c desc i) := by
  have len := seg.length
  have read := seg.cdf i (by omega)
  rw [Nat.sub_zero] at read
  exact ⟨mem, hi, (List.getElem?_eq_some_iff.1 read).1⟩

theorem symbolValue_safe (valid : c.Valid) (symbol : Nat) : Keeps v data (Held v data) (symbolValue c desc symbol) := by
  apply Act.Triple.ite
  · exact fun _ => (bypass_safe valid).bind fun _ => Act.Triple.pure fun _ held => held
  · exact fun _ => Act.Triple.pure fun _ held => held

theorem decodeFound_safe (valid : c.Valid) (mem : desc ∈ c.dists) (seg : c.Segment desc freqs) (symbol : Nat) :
    Act.Triple (Event.Safe v data.length) (fun d => Held v data d ∧ Found c desc (d.get c.symbolBits) symbol)
      (decodeFound c desc symbol) (fun _ => Held v data) (Held v data) := by
  have width : c.symbolBits ≤ 31 := Nat.le_succ_of_le valid.symbol_hi
  have len := seg.length
  apply Act.Triple.ite
  · exact fun _ => Act.Triple.fail fun _ pre => pre.1
  · intro inside
    have symbol_le : symbol ≤ desc.bypassSentinel := Nat.le_of_not_gt inside
    have start := base_getD (k := symbol) seg (by omega)
    have next := base_getD (k := symbol + 1) seg (by omega)
    have order := starts_mono freqs (Nat.le_succ symbol)
    apply Act.Triple.after_note
    · intro e at_mem
      simp only [List.mem_cons, List.not_mem_nil, or_false] at at_mem
      rcases at_mem with rfl | rfl
      · exact segment_entry mem seg symbol (by omega)
      · exact segment_entry mem seg (symbol + 1) (by omega)
    · rw [start, next]
      have total : starts freqs (symbol + 1) - starts freqs symbol ≤ 2 ^ c.symbolBits :=
        Nat.le_trans (Nat.sub_le _ _) (Nat.le_trans (starts_le_sum freqs _) seg.total)
      have advanced : Act.Triple (Event.Safe v data.length)
          (fun d => Held v data d ∧ Found c desc (d.get c.symbolBits) symbol)
          (advance (starts freqs symbol) (starts freqs (symbol + 1) - starts freqs symbol) c.symbolBits)
          (fun _ => Held v data) (Held v data) := by
        apply (advance_safe width total).pre
        rintro d ⟨held, found⟩
        obtain ⟨below, above⟩ := found symbol_le
        rw [start] at below
        rw [next] at above
        refine ⟨held, ?_, by omega⟩
        rcases below with rfl | below
        · rw [starts_zero]
          exact Nat.zero_le _
        · exact below
      exact advanced.bind fun _ => symbolValue_safe valid symbol

theorem decodeSymbol_safe (valid : c.Valid) (mem : desc ∈ c.dists) (seg : c.Segment desc freqs) :
    Keeps v data (Held v data) (decodeSymbol c desc) := by
  apply Act.Triple.look
  intro d held
  have searched : Act.Triple (Event.Safe v data.length) (fun d' => d' = d)
      (search c desc (d.get c.symbolBits) (desc.bypassSentinel + 1) 0 (desc.bypassSentinel + 1))
      (fun symbol d' => d' = d ∧ Found c desc (d.get c.symbolBits) symbol) (Held v data) :=
    search_safe (segment_entry mem seg) (d.get c.symbolBits) (desc.bypassSentinel + 1) 0 (desc.bypassSentinel + 1)
      (Nat.zero_le _) (Nat.le_refl _) (Nat.le_refl _) (Or.inl rfl) (Or.inl rfl)
  apply searched.bind
  intro symbol
  apply (decodeFound_safe valid mem seg symbol).pre
  rintro d' ⟨rfl, found⟩
  exact ⟨held, found⟩

theorem decodeOne_safe (valid : c.Valid) (index : Int32) : Keeps v data (Held v data) (decodeOne c index) := by
  obtain ⟨freqs, seg⟩ := valid.dist_segment index.toInt.toNat
  apply Act.Triple.ite
  · exact fun _ => Act.Triple.pure fun _ held => held
  · exact fun _ => decodeSymbol_safe valid (valid.dist_mem _) seg

/-! ## Calls -/

/-- A call's events are safe, it keeps the decoder, and it returns one of three statuses. -/
structure CallSafe (v : RansVariant) (data : List UInt8) (P : RansDecoder → Prop)
    (out : Status × List Int32 × RansDecoder × List Event) : Prop where
  events : ∀ e ∈ out.2.2.2, e.Safe v data.length
  kept : P out.2.2.1
  status : out.1 = .ok ∨ out.1 = .format ∨ out.1 = .invalid

theorem decodeLoop_safe (valid : c.Valid) (values : List Int32) :
    ∀ (indices : List Int32) (d : RansDecoder), Held v data d →
      CallSafe v data (Held v data) (decodeLoop c values indices d) := by
  induction values with
  | nil => exact fun _ _ held => ⟨fun _ mem => absurd mem List.not_mem_nil, held, Or.inl rfl⟩
  | cons value values ih =>
    intro indices d held
    cases indices with
    | nil => exact ⟨fun _ mem => absurd mem List.not_mem_nil, held, Or.inl rfl⟩
    | cons index indices =>
      have one := decodeOne_safe valid index d held
      unfold decodeLoop
      cases ran : decodeOne c index d with
      | mk r rest =>
        obtain ⟨d1, events⟩ := rest
        rw [ran] at one
        cases r with
        | none => exact ⟨one.1, one.2, Or.inr (Or.inl rfl)⟩
        | some got =>
          obtain ⟨more, kept, status⟩ := ih indices d1 one.2
          refine ⟨?_, kept, status⟩
          intro e mem
          rcases List.mem_append.1 mem with early | late
          · exact one.1 e early
          · exact more e late

end Symbol

/-- A decoder between calls: when it is open it is held. -/
def Between (v : RansVariant) (data : List UInt8) (d : RansDecoder) : Prop := d.opened = true → Held v data d

theorem decode_safe {c : RansCoder} (valid : c.Valid) (values indices : List Int32) {d : RansDecoder}
    (between : Between v data d) : CallSafe v data (Between v data) (decode c values indices d) := by
  unfold decode
  by_cases sizes : values.length ≠ indices.length
  · rw [if_pos sizes]
    exact ⟨fun _ mem => absurd mem List.not_mem_nil, between, Or.inr (Or.inr rfl)⟩
  · rw [if_neg sizes]
    by_cases closed : (!d.opened || c.dists.isEmpty || c.cdfTable.isEmpty) = true
    · rw [if_pos closed]
      exact ⟨fun _ mem => absurd mem List.not_mem_nil, between, Or.inr (Or.inr rfl)⟩
    · rw [if_neg closed]
      have opened : d.opened = true := by
        cases h : d.opened with
        | true => rfl
        | false => exact absurd (by rw [h]; rfl) closed
      have safe := decodeLoop_safe valid values indices d (between opened)
      exact ⟨safe.events, fun _ => safe.kept, safe.status⟩

theorem open_safe (v : RansVariant) (data : List UInt8) :
    (∀ e ∈ («open» data (.new v)).2.2, e.Safe v data.length) ∧ Between v data («open» data (.new v)).2.1 ∧
      ((«open» data (.new v)).1 = .ok ∨ («open» data (.new v)).1 = .format) := by
  have start : Within v data { RansDecoder.new v with data := data, pos := 0, opened := false } ∧
      ({ RansDecoder.new v with data := data, pos := 0, opened := false } : RansDecoder).opened = false :=
    ⟨⟨rfl, rfl, Nat.zero_le _⟩, rfl⟩
  have shut : ∀ (d : RansDecoder) (pos : Nat), d.opened = false →
      ({ d with pos := pos } : RansDecoder).opened = false := fun _ _ closed => closed
  unfold «open»
  by_cases units : data.length % (RansDecoder.new v).variant.unitBytes ≠ 0
  · rw [if_pos units]
    exact ⟨fun _ mem => absurd mem List.not_mem_nil, fun opened => absurd opened Bool.false_ne_true, Or.inr rfl⟩
  · rw [if_neg units]
    have read := initWord_safe shut _ start
    cases ran : initWord { RansDecoder.new v with data := data, pos := 0, opened := false } with
    | mk r rest =>
      obtain ⟨d1, events⟩ := rest
      rw [ran] at read
      cases r with
      | none =>
        have closed : d1.opened = false := read.2.2
        refine ⟨read.1, fun opened => ?_, Or.inr rfl⟩
        rw [closed] at opened
        cases opened
      | some x =>
        obtain ⟨⟨within, closed⟩, word⟩ : (Within v data d1 ∧ d1.opened = false) ∧ x < 2 ^ v.wordBits := read.2
        dsimp only
        rw [within.variant]
        by_cases low : x < v.lower
        · rw [if_pos low]
          refine ⟨read.1, fun opened => ?_, Or.inr rfl⟩
          rw [closed] at opened
          cases opened
        · rw [if_neg low]
          refine ⟨read.1, fun _ => ⟨⟨rfl, within.bytes, within.inside⟩, Nat.le_of_not_lt low, word⟩, Or.inl rfl⟩

theorem decodeCalls_safe {calls : List DecodeCall} (valid : ∀ call ∈ calls, call.coder.Valid) :
    ∀ {d}, Between v data d →
      (∀ e ∈ (decodeCalls calls d).2.2, e.Safe v data.length) ∧ Between v data (decodeCalls calls d).2.1 ∧
        ∀ r ∈ (decodeCalls calls d).1, r.1 = .ok ∨ r.1 = .format ∨ r.1 = .invalid := by
  induction calls with
  | nil =>
    intro d between
    exact ⟨fun _ mem => absurd mem List.not_mem_nil, between, fun _ mem => absurd mem List.not_mem_nil⟩
  | cons call calls ih =>
    intro d between
    have one := decode_safe (valid call List.mem_cons_self) call.values call.indices between
    obtain ⟨events, kept, statuses⟩ := ih (fun c mem => valid c (List.mem_cons_of_mem call mem)) one.kept
    refine ⟨?_, kept, ?_⟩
    · intro e mem
      rcases List.mem_append.1 mem with early | late
      · exact one.events e early
      · exact events e late
    · intro r mem
      rcases List.mem_cons.1 mem with rfl | late
      · exact one.status
      · exact statuses r late

end Noted

end RansDecoder

/-- A call whose coder `create` accepted, of any variant. -/
def DecodeCall.Accepted (call : DecodeCall) : Prop :=
  ∃ variant lengths offsets table symbolBits bypassBits,
    RansCoder.create variant lengths offsets table symbolBits bypassBits = .ok call.coder

theorem DecodeCall.Accepted.valid {call : DecodeCall} (accepted : call.Accepted) : call.coder.Valid := by
  obtain ⟨_, _, _, _, _, _, created⟩ := accepted
  exact (RansCoder.create_valid created).1

namespace RansDecoder

/-- **The decoder on any bytes.** The session with its notes is the session. Its
events are in their bounds: bytes of the data, entries of the selected
segment, states of the interval, digits of the word, and no loop without fuel.
Every call returns one of three statuses. A call that succeeds, and a session
that succeeds, fails on data cut before where it ended. -/
theorem session_safe (v : RansVariant) (data : List UInt8) (calls : List DecodeCall)
    (accepted : ∀ call ∈ calls, call.Accepted) :
    (Noted.session v data calls).1 = session v data calls ∧
    (∀ e ∈ (Noted.session v data calls).2, e.Safe v data.length) ∧
    ((session v data calls).1 = .ok ∨ (session v data calls).1 = .format) ∧
    (∀ r ∈ (session v data calls).2.1, r.1 = .ok ∨ r.1 = .format ∨ r.1 = .invalid) ∧
    (∀ call ∈ calls, ∀ (d d' : RansDecoder) (got : List Int32) (n : Nat), d.pos ≤ d.data.length →
      d.decode call.coder call.values call.indices = (.ok, got, d') → d.pos ≤ n → n < d'.pos →
        ((d.withData (d.data.take n)).decode call.coder call.values call.indices).1 ≠ .ok) ∧
    (Succeeds v data calls → ∀ n < (session v data calls).2.2.pos, ¬Succeeds v (data.take n) calls) := by
  have valid : ∀ call ∈ calls, call.coder.Valid := fun call mem => (accepted call mem).valid
  obtain ⟨opening, between, status⟩ := Noted.open_safe v data
  obtain ⟨events, -, statuses⟩ := Noted.decodeCalls_safe valid between
  have same := Noted.session_plain v data calls
  refine ⟨same, ?_, ?_, ?_, ?_, ?_⟩
  · intro e mem
    rcases List.mem_append.1 mem with early | late
    · exact opening e early
    · exact events e late
  · rw [← same]
    exact status
  · rw [← same]
    exact statuses
  · intro call _ d d' got n inside done from_pos cut
    exact decode_cut done inside from_pos cut
  · exact fun done n cut => session_cut done cut

/-- Two values, the second bypassed, over six bytes that are all needed. -/
theorem session_safe_sample :
    Succeeds .byte [190, 143, 227, 56, 127, 44] [⟨sampleCoder, [0, 0], [0, 0]⟩] ∧
      (∀ e ∈ (Noted.session .byte [190, 143, 227, 56, 127, 44] [⟨sampleCoder, [0, 0], [0, 0]⟩]).2, e.Safe .byte 6) ∧
      ∀ n < 6, ¬Succeeds .byte ([190, 143, 227, 56, 127, 44].take n) [⟨sampleCoder, [0, 0], [0, 0]⟩] := by
  have created : RansCoder.create .byte [3] [1] [9, 4, 3] 4 2 = .ok sampleCoder := rfl
  have accepted : ∀ call ∈ [DecodeCall.mk sampleCoder [0, 0] [0, 0]], call.Accepted := by
    intro call mem
    rw [List.mem_singleton.1 mem]
    exact ⟨_, _, _, _, _, _, created⟩
  have ran : session .byte [190, 143, 227, 56, 127, 44] [⟨sampleCoder, [0, 0], [0, 0]⟩] =
      (.ok, [(.ok, [7, 90])], ⟨.byte, 8388608, [190, 143, 227, 56, 127, 44], 6, true⟩) := by decide +kernel
  have done : Succeeds .byte [190, 143, 227, 56, 127, 44] [⟨sampleCoder, [0, 0], [0, 0]⟩] := by
    unfold Succeeds
    rw [ran]
    exact ⟨rfl, fun r mem => by rw [List.mem_singleton.1 mem]⟩
  obtain ⟨-, events, -, -, -, cut⟩ :=
    session_safe .byte [190, 143, 227, 56, 127, 44] [⟨sampleCoder, [0, 0], [0, 0]⟩] accepted
  rw [ran] at cut
  exact ⟨done, events, cut done⟩

end RansDecoder

end Rkvc.Mlvc
