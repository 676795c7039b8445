/-
  File:      Qbz2/Decompress/Chunks.lean
  Subject:   Runs of `BZ2_bzDecompress` over an input that is offered in any portions, into any
             buffers.

  * `DecompressRun` -- the runs from `BZ2_bzDecompressInit`, until a call returns something other
    than `BZ_OK`;
  * `run_sim` -- a run is a run of the machine on the whole input;
  * `finished_unique` -- two runs to the end over the same input end with the same code and the same
    output;
  * `run_rest`, `run_forward`, `ended_forward` -- what a run has used up of its input, and that no
    call steps back behind its own.
-/
import Qbz2.Decompress.Calls

namespace Qbz2

open Transducer Bits

/-! ## 1. Calls -/

/-- A call of `BZ2_bzDecompress`: the stream handed over, the code, the stream handed back. -/
structure DecompressCall where
  strm : BzStream
  ret : Ret
  strm' : BzStream

/-- How many bytes a call consumed. -/
def DecompressCall.taken (c : DecompressCall) : Nat := c.strm.availIn - c.strm'.availIn

/-- The output a call delivered. -/
def DecompressCall.given (c : DecompressCall) : List Byte := c.strm'.out.drop c.strm.out.length

/-- The output of a run. -/
def delivered (calls : List DecompressCall) : List Byte := calls.flatMap DecompressCall.given

/-- The code of the last call, `BZ_OK` before the first. -/
def lastRet (calls : List DecompressCall) : Ret :=
  match calls.getLast? with
  | none => .ok
  | some c => c.ret

theorem delivered_concat (calls : List DecompressCall) (c : DecompressCall) :
    delivered (calls ++ [c]) = delivered calls ++ c.given := by
  unfold delivered
  rw [List.flatMap_append, List.flatMap_singleton]

theorem lastRet_concat (calls : List DecompressCall) (c : DecompressCall) :
    lastRet (calls ++ [c]) = c.ret := by
  unfold lastRet
  rw [List.getLast?_concat]

/-! ## 2. What a call takes from the input -/

theorem Served.input_eq {strm strm' : BzStream} {w : List Byte} (h : Served strm strm' w)
    (hle : strm'.availIn ≤ strm.availIn) :
    strm.input = strm.input.take (strm.availIn - strm'.availIn) ++ strm'.input := by
  have hin := h.input
  have hsplit := input_skip strm (show strm.availIn - strm'.availIn ≤ strm.availIn by omega)
  have hlen : (bytesAt strm.mem strm.nextIn (strm.availIn - strm'.availIn)).length =
      strm.availIn - strm'.availIn := length_bytesAt _ _ _
  have hnext : strm.nextIn + ((strm.availIn - strm'.availIn : Nat) : Int) = strm'.nextIn := by omega
  have hav : strm.availIn - (strm.availIn - strm'.availIn) = strm'.availIn := by omega
  have htail : strm'.input = bytesAt strm.mem (strm.nextIn + (strm.availIn - strm'.availIn : Nat))
      (strm.availIn - (strm.availIn - strm'.availIn)) := by
    rw [hnext, hav, BzStream.input, h.mem]
  rw [htail]
  conv_lhs => rw [hsplit]
  conv_rhs => rw [hsplit]
  rw [List.take_left' hlen]

/-- A call hands back no more than it has taken, and moves the pointer by as much as the count. -/
def DecompressCall.Forward (c : DecompressCall) : Prop :=
  c.strm'.availIn ≤ c.strm.availIn ∧ c.strm.nextIn ≤ c.strm'.nextIn ∧
    c.strm'.nextIn = c.strm.nextIn + c.taken ∧ c.strm.availIn = c.strm'.availIn + c.taken

theorem Served.forward {c : DecompressCall} {w : List Byte} (h : Served c.strm c.strm' w)
    (hle : c.strm'.availIn ≤ c.strm.availIn) : c.Forward := by
  have hin := h.input
  unfold DecompressCall.Forward DecompressCall.taken
  omega

/-- What is left of the input after a call that handed nothing back. -/
theorem rest_drop {strm strm' : BzStream} {w more : List Byte} (h : Served strm strm' w)
    (hle : strm'.availIn ≤ strm.availIn) :
    (strm.input ++ more).drop (strm.availIn - strm'.availIn) = strm'.input ++ more := by
  have hlen : (strm.input.take (strm.availIn - strm'.availIn)).length =
      strm.availIn - strm'.availIn := by
    rw [List.length_take, BzStream.input, length_bytesAt]
    omega
  have hsplit := h.input_eq hle
  calc (strm.input ++ more).drop (strm.availIn - strm'.availIn)
      = ((strm.input.take (strm.availIn - strm'.availIn) ++ strm'.input) ++ more).drop
          (strm.availIn - strm'.availIn) := by rw [← hsplit]
    _ = strm'.input ++ more := by rw [List.append_assoc, List.drop_left' hlen]

theorem Served.given {c : DecompressCall} {w : List Byte} (h : Served c.strm c.strm' w) :
    c.given = w := by
  unfold DecompressCall.given
  rw [h.out, List.drop_left]

/-! ## 3. Runs -/

section

variable {μ : Type} [MtfList μ] [Build]

/-- **The runs over the input `x`.** Every call is offered a part of what is left of it (none, some
    or all), at any address, and room for any number of bytes; a call is made while the calls before
    it returned `BZ_OK`. The last index is what is left. -/
inductive DecompressRun (ver : Version) (small : Bool) (x : List Byte) :
    List DecompressCall → DState μ → List Byte → Prop
  | init : DecompressRun ver small x [] (DState.init small) x
  | call {calls : List DecompressCall} {d d' : DState μ} {rest : List Byte}
      (h : DecompressRun ver small x calls d rest) (hok : ∀ c ∈ calls, c.ret = .ok)
      (c : DecompressCall) (hoffer : c.strm.input <+: rest)
      (hc : bzDecompress ver d c.strm = some (c.ret, d', c.strm')) :
      DecompressRun ver small x (calls ++ [c]) d' (rest.drop c.taken)

theorem DecompressRun.all_ok {ver : Version} {small : Bool} {x : List Byte}
    {calls : List DecompressCall} {d : DState μ} {rest : List Byte}
    (h : DecompressRun ver small x calls d rest) (hok : lastRet calls = .ok) :
    ∀ c ∈ calls, c.ret = .ok := by
  cases h with
  | init => exact fun c hc => absurd hc List.not_mem_nil
  | call h hall c _ _ =>
    rw [lastRet_concat] at hok
    intro c' hc'
    rcases List.mem_append.mp hc' with hc' | hc'
    · exact hall c' hc'
    · rw [List.mem_singleton.mp hc']
      exact hok

/-- A decoder that cannot give out any more: whatever room it gets, it asks for input. -/
def DState.Exhausted (ver : Version) (d : DState μ) : Prop :=
  ∀ strm : BzStream, strm.availIn = 0 →
    ∃ (d' : DState μ) (strm' : BzStream), bzDecompress ver d strm = some (.ok, d', strm') ∧
      strm'.out = strm.out

/-- **A run that has come to its end**: a call has returned something other than `BZ_OK`, or the
    input is used up and no further output is possible. -/
def Finished (ver : Version) (calls : List DecompressCall) (d : DState μ) (rest : List Byte) : Prop :=
  lastRet calls ≠ .ok ∨ rest = [] ∧ d.Exhausted ver

/-! ## 4. One call -/

/-- The tape of a decoder that has `rest` before it. -/
def DState.tape (d : DState μ) (rest : List Byte) : List Bool := d.bits.bits ++ bytesBits rest

/-- **A call on a part of the input** is a run of the machine on all of it. -/
theorem call_sim (ver : Version) {d d' : DState μ} (hd : d.Resting ver) {c : DecompressCall}
    {rest more : List Byte} (hrest : rest = c.strm.input ++ more)
    (hc : bzDecompress ver d c.strm = some (c.ret, d', c.strm')) :
    ∃ (w : List Byte) (y : Core μ × Point) (u : List Bool),
      Steps (bitDecoder ver d.small) (d.core, d.point) (d.tape rest) w y (u ++ bytesBits more) ∧
      Steps (bitDecoder ver d.small) (d.core, d.point) (tape d.bits c.strm) w y u ∧
      CallEnds ver d.small c.strm c.ret d' c.strm' w y u ∧ d'.small = d.small := by
  obtain ⟨r, e, strm', w, y, u, he, hs, hC, hsmall⟩ := bzDecompress_sim ver hd c.strm
  obtain ⟨rfl, rfl, rfl⟩ : r = c.ret ∧ e = d' ∧ strm' = c.strm' := by
    have h := Option.some.inj (he.symm.trans hc)
    exact ⟨congrArg Prod.fst h, congrArg (fun r => r.2.1) h, congrArg (fun r => r.2.2) h⟩
  have htape : d.tape rest = Qbz2.tape d.bits c.strm ++ bytesBits more := by
    rw [DState.tape, hrest, bytesBits_append, ← List.append_assoc]
    rfl
  refine ⟨w, y, u, ?_, hs, hC, hsmall⟩
  rw [htape]
  exact hs.extend _

/-! ## 5. A run -/

/-- The machine at the start of a stream. -/
def atStart (small : Bool) : Core μ × Point :=
  ((DState.init small : DState μ).core, (DState.init small : DState μ).point)

/-- **A run whose calls all returned `BZ_OK`** is a run of the machine on the whole input, and its
    decoder is ready for another call. -/
theorem run_sim (ver : Version) {small : Bool} {x : List Byte} {calls : List DecompressCall}
    {d : DState μ} {rest : List Byte} (h : DecompressRun ver small x calls d rest)
    (hok : ∀ c ∈ calls, c.ret = .ok) :
    d.Resting ver ∧ d.small = small ∧
      Steps (bitDecoder ver small) (atStart small) (bytesBits x) (delivered calls)
        (d.core, d.point) (d.tape rest) := by
  induction h with
  | init => exact ⟨resting_decompressInit ver small, rfl, .refl _ _⟩
  | @call calls d d' rest h hok' c hoffer hc ih =>
    obtain ⟨hd, rfl, hs⟩ := ih hok'
    obtain ⟨more, hmore⟩ := hoffer
    obtain ⟨w, y, u, hs', -, hC, hsmall⟩ := call_sim ver hd hmore.symm hc
    have hret : c.ret = .ok := hok c (List.mem_append_right _ List.mem_cons_self)
    rw [hret] at hC
    have hrest : ∀ {w : List Byte}, Served c.strm c.strm' w → c.strm'.availIn ≤ c.strm.availIn →
        d'.tape (rest.drop c.taken) = tape d'.bits c.strm' ++ bytesBits more := by
      intro w hserved hle
      rw [← hmore, DecompressCall.taken, rest_drop hserved hle, DState.tape, bytesBits_append,
        ← List.append_assoc]
      rfl
    cases hC with
    | full hserved hle hd' h0 hst =>
      refine ⟨hd', hsmall, ?_⟩
      rw [delivered_concat, hserved.given, hrest hserved hle]
      exact hs.trans hs'
    | starved hserved hle hd' hst h0 =>
      refine ⟨hd', hsmall, ?_⟩
      rw [delivered_concat, hserved.given, hrest hserved hle]
      exact hs.trans hs'
    | failed _ _ _ _ hne _ => exact absurd rfl hne

/-- **A run whose last call returned something else** has taken the machine to a halt with that
    code. If it is `BZ_STREAM_END`, what the machine emitted has been delivered. -/
theorem run_halts (ver : Version) {small : Bool} {x : List Byte} {calls : List DecompressCall}
    {d : DState μ} {rest : List Byte} (h : DecompressRun ver small x calls d rest)
    (hne : lastRet calls ≠ .ok) :
    ∃ (w : List Byte) (y : Core μ × Point) (u : List Bool),
      Steps (bitDecoder ver small) (atStart small) (bytesBits x) w y u ∧
      bitDecoder ver small y = .halt (lastRet calls) ∧
      (lastRet calls = .streamEnd → w = delivered calls) := by
  cases h with
  | init => exact absurd rfl hne
  | @call calls d₀ _ rest h hok c hoffer hc =>
    obtain ⟨hd, rfl, hs⟩ := run_sim ver h hok
    obtain ⟨more, hmore⟩ := hoffer
    obtain ⟨w, y, u, hs', -, hC, -⟩ := call_sim ver hd hmore.symm hc
    rw [lastRet_concat] at hne ⊢
    refine ⟨_, y, _, hs.trans hs', ?_, ?_⟩
    · generalize c.ret = r at hC hne
      cases hC with
      | full => exact absurd rfl hne
      | starved => exact absurd rfl hne
      | failed _ _ _ hh _ _ => exact hh
      | ended _ _ _ hcrc => exact if_neg (not_not_intro hcrc)
    · intro hend
      rw [hend] at hC
      rw [delivered_concat]
      cases hC with
      | failed _ _ _ _ _ hne' => exact absurd rfl hne'
      | ended hserved _ hgive _ =>
        have hall := hserved.trans (giveBack_served hgive)
        rw [List.append_nil] at hall
        rw [hall.given]

/-- **A run that ends with `BZ_STREAM_END`**: the machine has come to the end of the stream with the
    decoder, and has given out what the calls have delivered. -/
theorem run_ended (ver : Version) {small : Bool} {x : List Byte} {calls : List DecompressCall}
    {d : DState μ} {rest : List Byte} (h : DecompressRun ver small x calls d rest)
    (hend : lastRet calls = .streamEnd) :
    ∃ u, Steps (bitDecoder ver small) (atStart small) (bytesBits x) (delivered calls)
        (d.core, .parser (.ret .streamEnd)) u ∧
      d.core.calculatedCombinedCRC = d.core.p.storedCombinedCRC := by
  cases h with
  | init => cases hend
  | @call calls d₀ _ rest h hok c hoffer hc =>
    obtain ⟨hd, rfl, hs⟩ := run_sim ver h hok
    obtain ⟨more, hmore⟩ := hoffer
    obtain ⟨w, y, u, hs', -, hC, -⟩ := call_sim ver hd hmore.symm hc
    rw [lastRet_concat] at hend
    rw [hend] at hC
    cases hC with
    | failed _ _ _ _ _ hne => exact absurd rfl hne
    | @ended d₁ _ strm₁ _ _ hserved _ hgive hcrc =>
      have hcore : d₁.core = d.core := by
        have hcore := congrArg (fun r : DState μ × BzStream => r.1.core) hgive
        cases ver <;> exact hcore
      have hall := hserved.trans (giveBack_served hgive)
      rw [List.append_nil] at hall
      rw [hcore] at hs' hcrc
      rw [delivered_concat, hall.given]
      exact ⟨_, hs.trans hs', hcrc⟩

/-- A decoder that cannot give out any more is stuck at a label, for want of input. -/
theorem exhausted_stuck (ver : Version) {d : DState μ} (hd : d.Resting ver)
    (h : d.Exhausted ver) :
    ∃ (y : Core μ × Point) (u : List Bool) (n : Nat) (k : List Bool → Core μ × Point),
      Steps (bitDecoder ver d.small) (d.core, d.point) (d.tape []) [] y u ∧
      bitDecoder ver d.small y = .read n k ∧ u.length < n := by
  let strm : BzStream :=
    { mem := fun _ => 0
      nextIn := 0
      availIn := 0
      totalInLo32 := 0
      totalInHi32 := 0
      nextOut := 0
      availOut := 1
      totalOutLo32 := 0
      totalOutHi32 := 0
      out := [] }
  obtain ⟨d', strm', hc, hout⟩ := h strm rfl
  obtain ⟨w, y, u, -, hs, hC, hsmall⟩ :=
    @call_sim μ _ _ ver d d' hd ⟨strm, .ok, strm'⟩ [] [] rfl hc
  have htape : d.tape [] = tape d.bits strm := rfl
  rw [htape]
  have hnil : ∀ {w : List Byte}, Served strm strm' w → w = [] := by
    intro w hserved
    have := hserved.out
    rw [hout] at this
    exact List.append_right_eq_self.mp this.symm
  cases hC with
  | full hserved hle hd' h0 hst =>
    have hroom := hserved.availOut
    rw [hnil hserved] at hroom
    have hone : strm'.availOut + 0 = 1 := hroom
    rw [show strm'.availOut = 0 from h0] at hone
    exact absurd hone (by decide)
  | @starved _ _ _ l hserved hle hd' hst h0 =>
    have hw := hnil hserved
    subst hw
    refine ⟨_, _, l.nbits, fun bits => standing (d'.core.resume ver d.small l (bitsVal bits)), hs,
      ?_, ?_⟩
    · rw [point_parsing hst]
      rfl
    · have hin : strm'.input = [] := by
        unfold BzStream.input
        rw [show strm'.availIn = 0 from h0]
        rfl
      rw [Qbz2.tape, hin, bytesBits_nil, List.append_nil, BitBuf.length_bits]
      exact hd'.starved l hst
  | failed _ _ _ _ hne _ => exact absurd rfl hne

/-- The code of a machine that cannot go on: that of its halt, or `BZ_OK` where it wants more
    input. -/
def verdict : Node (Core μ × Point) Bool Byte Ret → Ret
  | .halt r => r
  | _ => .ok

/-- **A run to its end is a run of the machine to its end**, and what the machine has emitted has
    been delivered unless the stream is rejected. -/
theorem finished_stuck (ver : Version) {small : Bool} {x : List Byte} {calls : List DecompressCall}
    {d : DState μ} {rest : List Byte} (h : DecompressRun ver small x calls d rest)
    (hfin : Finished ver calls d rest) :
    ∃ (w : List Byte) (y : Core μ × Point) (u : List Bool),
      Steps (bitDecoder ver small) (atStart small) (bytesBits x) w y u ∧
      Stuck (bitDecoder ver small) y u ∧ lastRet calls = verdict (bitDecoder ver small y) ∧
      (lastRet calls = .streamEnd ∨ lastRet calls = .ok → w = delivered calls) := by
  by_cases hne : lastRet calls = .ok
  · obtain ⟨hd, rfl, hs⟩ := run_sim ver h (h.all_ok hne)
    obtain ⟨rfl, hex⟩ := hfin.resolve_left (not_not_intro hne)
    obtain ⟨y, u, n, k, hs', hM, hn⟩ := exhausted_stuck ver hd hex
    refine ⟨_, y, u, hs.trans hs', .starved hM hn, ?_, fun _ => List.append_nil _⟩
    rw [hM]
    exact hne
  · obtain ⟨w, y, u, hs, hM, hw⟩ := run_halts ver h hne
    refine ⟨w, y, u, hs, .halted hM, ?_, fun hr => hw (hr.resolve_right hne)⟩
    rw [hM]
    rfl

/-- Runs to the end over one input end alike. -/
theorem finished_unique (ver : Version) {small : Bool} {x : List Byte}
    {calls calls' : List DecompressCall} {d d' : DState μ} {rest rest' : List Byte}
    (h : DecompressRun ver small x calls d rest) (hfin : Finished ver calls d rest)
    (h' : DecompressRun ver small x calls' d' rest') (hfin' : Finished ver calls' d' rest') :
    lastRet calls = lastRet calls' ∧
      (lastRet calls = .streamEnd ∨ lastRet calls = .ok → delivered calls = delivered calls') := by
  obtain ⟨w, y, u, hs, hstuck, hret, hw⟩ := finished_stuck ver h hfin
  obtain ⟨w', y', u', hs', hstuck', hret', hw'⟩ := finished_stuck ver h' hfin'
  obtain ⟨rfl, rfl, rfl⟩ := hs.unique hstuck hs' hstuck'
  have hsame : lastRet calls = lastRet calls' := hret.trans hret'.symm
  refine ⟨hsame, fun hr => ?_⟩
  rw [← hw hr, hw' (hsame ▸ hr)]

/-- A stream over `l`, with room for one byte. -/
def offering (l : List Byte) : BzStream where
  mem a := l.getD a.toNat 0
  nextIn := 0
  availIn := l.length
  totalInLo32 := 0
  totalInHi32 := 0
  nextOut := 0
  availOut := 1
  totalOutLo32 := 0
  totalOutHi32 := 0
  out := []

/-- The compressed file of no bytes. -/
def emptyFile : List Byte :=
  [0x42, 0x5a, 0x68, 0x39, 0x17, 0x72, 0x45, 0x38, 0x50, 0x90, 0, 0, 0, 0]

/-! ## 6. The end of the stream -/

def Point.ahead : Point → Nat
  | .output => 80
  | .parser ctl => ctl.ahead

/-- Nothing is lost of the distance to the end but what is read. -/
def NodeAhead (a : Nat) : Node (Core μ × Point) Bool Byte Ret → Prop
  | .read n k => ∀ bits, a ≤ (k bits).2.ahead + n
  | .emit _ s => a ≤ s.2.ahead
  | .move s => a ≤ s.2.ahead
  | .halt _ => True

omit [Build] in
theorem bitDecoder_ahead (ver : Version) (small : Bool) (s : Core μ × Point) :
    NodeAhead s.2.ahead (bitDecoder ver small s) := by
  obtain ⟨c, p⟩ := s
  unfold bitDecoder
  cases p with
  | output =>
    dsimp only
    split
    · exact Nat.le_refl 80
    · split
      · trivial
      · split
        · split
          · trivial
          · exact Nat.le_refl 80
        · split
          · trivial
          · exact Nat.le_refl 80
  | parser ctl =>
    cases ctl with
    | get l => exact fun bits => (resume_ahead c.p ver l _).1
    | fast => exact Nat.le_of_eq (inner_beginVal c.p .literal).1.symm
    | block =>
      dsimp only
      split
      · exact Nat.le_refl 80
      · trivial
      · exact Nat.le_refl 80
    | ret r =>
      cases r with
      | streamEnd =>
        dsimp only
        split <;> trivial
      | _ => trivial

omit [Build] in
/-- **There are so many bits to be read, at least, before the end of the stream.** -/
theorem steps_ahead (ver : Version) (small : Bool) {s y : Core μ × Point} {t u : List Bool}
    {w : List Byte} (h : Steps (bitDecoder ver small) s t w y u) :
    s.2.ahead + u.length ≤ t.length + y.2.ahead := by
  induction h with
  | refl => exact Nat.le_of_eq (Nat.add_comm _ _)
  | @read s y t u w n k hM hn _ ih =>
    have hstep := bitDecoder_ahead ver small s
    rw [hM] at hstep
    have hk := hstep (t.take n)
    rw [List.length_drop] at ih
    omega
  | @emit s _ _ _ _ _ _ hM _ ih =>
    have hstep := bitDecoder_ahead ver small s
    rw [hM] at hstep
    exact Nat.le_trans (Nat.add_le_add_right hstep _) ih
  | @move s _ _ _ _ _ hM _ ih =>
    have hstep := bitDecoder_ahead ver small s
    rw [hM] at hstep
    exact Nat.le_trans (Nat.add_le_add_right hstep _) ih

/-- The bytes of the calls of a run are those it has used up. -/
theorem run_rest {ver : Version} {small : Bool} {x : List Byte} {calls : List DecompressCall}
    {d : DState μ} {rest : List Byte} (h : DecompressRun ver small x calls d rest) :
    rest = x.drop (calls.map DecompressCall.taken).sum ∧
      (calls.map DecompressCall.taken).sum ≤ x.length := by
  induction h with
  | init => exact ⟨rfl, Nat.zero_le _⟩
  | @call calls d d' rest h hok c hoffer hc ih =>
    obtain ⟨rfl, hle⟩ := ih
    have hlen := hoffer.length_le
    rw [BzStream.input, length_bytesAt, List.length_drop] at hlen
    rw [List.map_append, List.sum_append, List.map_singleton, List.sum_singleton, List.drop_drop]
    refine ⟨rfl, ?_⟩
    have htaken : c.taken ≤ c.strm.availIn := Nat.sub_le _ _
    omega

/-- **The calls of a run without an error step forward.** -/
theorem run_forward (ver : Version) {small : Bool} {x : List Byte} {calls : List DecompressCall}
    {d : DState μ} {rest : List Byte} (h : DecompressRun ver small x calls d rest)
    (hok : ∀ c ∈ calls, c.ret = .ok) : ∀ c ∈ calls, c.Forward := by
  induction h with
  | init => exact fun c hc => absurd hc List.not_mem_nil
  | @call calls d d' rest h hok' c hoffer hc ih =>
    intro c' hc'
    rcases List.mem_append.mp hc' with hmem | hmem
    · exact ih hok' c' hmem
    · obtain rfl := List.mem_singleton.mp hmem
      obtain ⟨hd, rfl, -⟩ := run_sim ver h hok'
      obtain ⟨more, hmore⟩ := hoffer
      obtain ⟨w, y, u, -, -, hC, -⟩ := call_sim ver hd hmore.symm hc
      rw [hok c' hc'] at hC
      cases hC with
      | full hs hle _ _ _ => exact hs.forward hle
      | starved hs hle _ _ _ => exact hs.forward hle
      | failed _ _ _ _ hne _ => exact absurd rfl hne

omit [Build] in
/-- **The bytes handed back were read in the same call.** What is in the buffer at the start of it
    is less than what was still to be read. -/
theorem ended_forward {small : Bool} {d d₁ d' : DState μ} (hd : d.Resting .qbz2)
    {strm strm₁ strm' : BzStream} {w : List Byte}
    (hs : Steps (bitDecoder .qbz2 small) (d.core, d.point) (tape d.bits strm) w
      (d₁.core, .parser (.ret .streamEnd)) (tape d₁.bits strm₁))
    (hgive : giveBack .qbz2 { d₁ with state := .idle } strm₁ = (d', strm')) :
    strm'.availIn ≤ strm.availIn ∧
      8 * strm'.availIn + d₁.bits.bsLive % 8 = (tape d₁.bits strm₁).length := by
  cases hgive
  have hahead := steps_ahead .qbz2 small hs
  have hlen : ∀ (b : BitBuf) (s : BzStream), (tape b s).length = b.bsLive + 8 * s.availIn := by
    intro b s
    rw [tape, List.length_append, BitBuf.length_bits, length_bytesBits, BzStream.input,
      length_bytesAt]
  have hbuf : d.bits.bsLive < d.point.ahead := by
    have hlive := hd.live
    cases hst : d.state with
    | idle => exact absurd hst hd.busy
    | output =>
      rw [point_output hst]
      exact Nat.lt_of_le_of_lt hlive (by decide)
    | parsing l =>
      rw [point_parsing hst]
      have hl := hd.starved l hst
      have hn : l.ahead = 80 ∨ l.nbits ≤ l.ahead := by
        cases l <;> first | exact .inl rfl | exact .inr (Nat.le_of_ble_eq_true rfl)
      rcases hn with hn | hn
      · change d.bits.bsLive < l.ahead
        rw [hn]
        exact Nat.lt_of_le_of_lt hlive (by decide)
      · exact Nat.lt_of_lt_of_le hl hn
  rw [hlen, hlen] at hahead
  rw [hlen]
  have hzero : Point.ahead (.parser (.ret .streamEnd)) = 0 := rfl
  rw [hzero] at hahead
  change strm₁.availIn + d₁.bits.bsLive / 8 ≤ strm.availIn ∧
    8 * (strm₁.availIn + d₁.bits.bsLive / 8) + d₁.bits.bsLive % 8 = _
  dsimp only at hahead
  omega

end

end Qbz2
