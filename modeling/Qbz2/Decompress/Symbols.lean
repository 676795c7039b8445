/-
  File:      Qbz2/Decompress/Symbols.lean
  Subject:   The loop of `BZ2_decompress` over the symbols of a block, whatever bits they come from.

  * `Core.feed` -- the loop, `GET_MTF_VAL` delivering the symbols of a list one after the other;
  * `Parse.left` -- how many symbols the selectors still provide for;
  * `Decoded small done st` -- the bytes `done` stand in the block and are counted; `AtHead` -- the
    loop's head, with what a run (`AtHead.run`) and a literal (`AtHead.literal`) do there;
  * **`feed_coded`** -- fed with the symbols of a column (`ZeroRun.coded`) and `EOB`, the loop ends
    with that column in the block.
-/
import Mathlib.Data.List.GetD
import Qbz2.Decompress.Machine
import Qbz2.Lib.ZeroRun

namespace Qbz2

open ZeroRun

/-! ## 1. Symbols delivered -/

section

variable {μ : Type} [MtfList μ]

/-- `GET_MTF_VAL` delivers `sym`, wherever the loop waits for a symbol. -/
def Core.deliver (ver : Version) (small : Bool) (c : Core μ) (ctl : Ctl) (sym : Int) :
    Option (Core μ × Ctl) :=
  match ctl with
  | .get (.mtf site _) => some (c.absorb small (c.p.value ver site sym))
  | .fast =>
    match c.absorb small (c.p.beginVal .literal) with
    | (c, .get (.mtf site _)) => some (c.absorb small (c.p.value ver site sym))
    | _ => none
  | _ => none

/-- `GET_MTF_VAL` delivers the symbols of a list; none where the loop does not wait for one. -/
def Core.feed (ver : Version) (small : Bool) : Core μ × Ctl → List Nat → Option (Core μ × Ctl)
  | s, [] => some s
  | (c, ctl), v :: vs =>
    match c.deliver ver small ctl v with
    | none => none
    | some s => feed ver small s vs

theorem feed_append (ver : Version) (small : Bool) (vs ws : List Nat) : ∀ s : Core μ × Ctl,
    Core.feed ver small s (vs ++ ws) = (Core.feed ver small s vs).bind
      fun s => Core.feed ver small s ws := by
  induction vs with
  | nil => intro s; rfl
  | cons v vs ih =>
    intro s
    obtain ⟨c, ctl⟩ := s
    rw [List.cons_append, Core.feed, Core.feed]
    cases c.deliver ver small ctl v with
    | none => rfl
    | some s => exact ih s

end

/-! ## 2. The parser between two symbols -/

namespace Parse

/-- The symbols for which there still are selectors. -/
def left (p : Parse) : Nat := bzGSize * (p.nSelectors - (p.groupNo + 1)).toNat + p.groupPos

/-- What no symbol changes. -/
def fixed (p : Parse) : Parse :=
  { p with
    groupNo := 0
    groupPos := 0
    gSel := 0
    gMinlen := 0
    nextSym := 0
    nblock := 0
    es := 0
    N := 0 }

theorem fixed_eq {α : Type} {p p' : Parse} (f : Parse → α) (h : p'.fixed = p.fixed)
    (hf : ∀ p : Parse, f p.fixed = f p) : f p' = f p := by
  rw [← hf p', h, hf]

/-- `GET_MTF_VAL` begins, where there is a selector. -/
theorem beginVal_of_left {p : Parse} (site : MtfSite) (h : 1 ≤ p.left) (h0 : -1 ≤ p.groupNo) :
    ∃ (p' : Parse) (zn : Int), p.beginVal site = p'.goto (.mtf site zn) ∧ p'.fixed = p.fixed ∧
      p'.nblock = p.nblock ∧ p'.es = p.es ∧ p'.N = p.N ∧ p'.left + 1 = p.left ∧
      -1 ≤ p'.groupNo := by
  unfold left bzGSize at h
  unfold beginVal
  by_cases hpos : p.groupPos = 0
  · rw [if_pos hpos]
    dsimp only
    rw [if_neg (by omega)]
    refine ⟨_, _, rfl, rfl, rfl, rfl, rfl, ?_, by dsimp only; omega⟩
    unfold left bzGSize
    dsimp only
    omega
  · rw [if_neg hpos]
    refine ⟨_, _, rfl, rfl, rfl, rfl, rfl, ?_, h0⟩
    unfold left
    dsimp only
    omega

end Parse

/-- `m` symbols can be delivered, the first of them not within a run. -/
def Fresh (p : Parse) (ctl : Ctl) (m : Nat) : Prop :=
  -1 ≤ p.groupNo ∧
    ((∃ site zn, ctl = .get (.mtf site zn) ∧ site ≠ .run ∧ m ≤ p.left + 1) ∨
      (ctl = .fast ∧ m ≤ p.left))

section

variable {μ : Type} [MtfList μ]

/-- A symbol delivered outside a run goes to the loop's head. -/
theorem deliver_fresh (ver : Version) (small : Bool) {c : Core μ} {ctl : Ctl} {m : Nat}
    (h : Fresh c.p ctl (m + 1)) (sym : Int) :
    ∃ p' : Parse, c.deliver ver small ctl sym =
        some ({ c with p := p' }.absorb small ({ p' with nextSym := sym }.symbol)) ∧
      p'.fixed = c.p.fixed ∧ p'.nblock = c.p.nblock ∧ m ≤ p'.left ∧ -1 ≤ p'.groupNo := by
  obtain ⟨h0, ⟨site, zn, rfl, hsite, hm⟩ | ⟨rfl, hm⟩⟩ := h
  · refine ⟨c.p, ?_, rfl, rfl, by omega, h0⟩
    unfold Core.deliver Parse.value
    cases site with
    | first => rfl
    | run => exact absurd rfl hsite
    | literal => rfl
  · obtain ⟨p', zn, he, hf, hn, _, _, hl, h0'⟩ := Parse.beginVal_of_left .literal
      (Nat.le_trans (Nat.succ_le_succ (Nat.zero_le m)) hm) h0
    refine ⟨p', ?_, hf, hn, by omega, h0'⟩
    unfold Core.deliver
    dsimp only
    rw [he]
    rfl

/-- One round of the loop over `RUNA` and `RUNB`. -/
theorem runStep_of_left {p : Parse} {d : Nat} (hd : d < 2) (hsym : p.nextSym = d)
    (hN : p.N < 2 ^ 21) (h : 1 ≤ p.left) (h0 : -1 ≤ p.groupNo) :
    ∃ (p' : Parse) (zn : Int), p.runStep = p'.goto (.mtf .run zn) ∧ p'.fixed = p.fixed ∧ p'.nblock = p.nblock ∧
      p'.es = p.es + p.N * (d + 1) ∧ p'.N = p.N * 2 ∧ p'.left + 1 = p.left ∧ -1 ≤ p'.groupNo := by
  unfold Parse.runStep
  rw [if_neg (by omega)]
  obtain ⟨p', zn, he, hf, hn, hes, hNN, hl, h0'⟩ := Parse.beginVal_of_left (p := { p with
    es := if p.nextSym = bzRunA then p.es + p.N else p.es + 2 * p.N
    N := p.N * 2 }) .run h h0
  refine ⟨p', zn, he, hf, hn, ?_, hNN, hl, h0'⟩
  rw [hes, hsym]
  dsimp only
  unfold bzRunA
  by_cases hz : d = 0
  · rw [if_pos (by omega), hz]
    simp
  · obtain rfl : d = 1 := by omega
    rw [if_neg (by decide)]
    push_cast
    ring

/-- **The digits of a run** within it: only the parser's counters move. -/
theorem feed_digits (ver : Version) (small : Bool) : ∀ (ds : List Nat) (c : Core μ) (zn : Int),
    (∀ d ∈ ds, d < 2) → c.p.N * 2 ^ ds.length ≤ 2 ^ 21 → ds.length ≤ c.p.left →
    -1 ≤ c.p.groupNo →
    ∃ (p' : Parse) (zn' : Int), Core.feed ver small (c, .get (.mtf .run zn)) ds =
        some ({ c with p := p' }, .get (.mtf .run zn')) ∧
      p'.fixed = c.p.fixed ∧ p'.nblock = c.p.nblock ∧ p'.es = c.p.es + c.p.N * value ds ∧
      p'.left + ds.length = c.p.left ∧ -1 ≤ p'.groupNo := by
  intro ds
  induction ds with
  | nil =>
    intro c zn _ _ _ h0
    exact ⟨c.p, zn, rfl, rfl, rfl, by simp [value], rfl, h0⟩
  | cons d ds ih =>
    intro c zn hds hN hl h0
    rw [List.length_cons] at hN hl
    rw [Nat.pow_succ] at hN
    have hd := hds d List.mem_cons_self
    have h1 : 1 ≤ 2 ^ ds.length := Nat.one_le_two_pow
    have hlt : c.p.N < 2 ^ 21 := by nlinarith
    obtain ⟨p₁, zn₁, he, hf, hn, hes, hNN, hleft, h0'⟩ := runStep_of_left
      (p := { c.p with nextSym := d }) hd rfl hlt (Nat.le_trans (Nat.succ_le_succ (Nat.zero_le _)) hl)
      h0
    have hdel : c.deliver ver small (.get (.mtf .run zn)) d =
        some ({ c with p := p₁ }, .get (.mtf .run zn₁)) := by
      have hrun : (d : Int) = bzRunA ∨ (d : Int) = bzRunB := by
        unfold bzRunA bzRunB
        omega
      unfold Core.deliver Parse.value
      dsimp only
      rw [if_pos hrun, he]
      rfl
    have hleft' : p₁.left + 1 = c.p.left := hleft
    have hNN' : p₁.N = c.p.N * 2 := hNN
    obtain ⟨p₂, zn₂, he₂, hf₂, hn₂, hes₂, hl₂, h0₂⟩ := ih { c with p := p₁ } zn₁
      (fun e he => hds e (List.mem_cons_of_mem _ he)) (by dsimp only; rw [hNN']; nlinarith)
      (by dsimp only; omega) h0'
    refine ⟨p₂, zn₂, ?_, hf₂.trans hf, hn₂.trans hn, ?_, ?_, h0₂⟩
    · rw [Core.feed, hdel]
      exact he₂
    · rw [hes₂]
      dsimp only
      rw [hes, hNN', value]
      push_cast
      ring
    · rw [List.length_cons]
      dsimp only at hl₂
      omega

/-- A run of `z` zeros has been read (none, if `z` is 0), and `m` symbols can be delivered. -/
def Pending (p : Parse) (ctl : Ctl) (z m : Nat) : Prop :=
  if z = 0 then Fresh p ctl m
  else -1 ≤ p.groupNo ∧ m ≤ p.left + 1 ∧ p.es = z - 1 ∧ ∃ zn, ctl = .get (.mtf .run zn)

/-- **The digits of a run**, from outside it. -/
theorem feed_run (ver : Version) (small : Bool) {c : Core μ} {ctl : Ctl} {z m : Nat}
    (h : Fresh c.p ctl ((digits z).length + (m + 1))) (hz : z < 2 ^ 21) (heob : 2 ≤ c.p.eob) :
    ∃ (p' : Parse) (ctl' : Ctl), Core.feed ver small (c, ctl) (digits z) =
        some ({ c with p := p' }, ctl') ∧
      p'.fixed = c.p.fixed ∧ p'.nblock = c.p.nblock ∧ Pending p' ctl' z (m + 1) := by
  cases z with
  | zero => exact ⟨c.p, ctl, rfl, rfl, rfl, by simpa [Pending] using h⟩
  | succ z =>
    have hval := value_digits (z + 1)
    have hpow := two_pow_length_digits (z + 1)
    have hlt := digits_lt (z + 1)
    generalize digits (z + 1) = ds at h hval hpow hlt ⊢
    cases ds with
    | nil => cases hval
    | cons d ds =>
      rw [List.length_cons] at h hpow
      rw [Nat.pow_succ] at hpow
      have hd := hlt d List.mem_cons_self
      obtain ⟨p₁, hdel, hf₁, hn₁, hl₁, h0₁⟩ :=
        deliver_fresh ver small (show Fresh c.p ctl (ds.length + (m + 1) + 1) by
          rw [show ds.length + (m + 1) + 1 = ds.length + 1 + (m + 1) by omega]
          exact h) (d : Int)
      -- the first digit starts the run
      have heob₁ : p₁.eob = c.p.eob := Parse.fixed_eq Parse.eob hf₁ fun _ => rfl
      have hsym : ({ p₁ with nextSym := (d : Int) } : Parse).symbol =
          ({ p₁ with nextSym := (d : Int), es := -1, N := 1 } : Parse).runStep := by
        unfold Parse.symbol
        dsimp only
        rw [if_neg (by rw [heob₁]; omega), if_pos (by unfold bzRunA bzRunB; omega)]
      have hds : value (d :: ds) = d + 1 + 2 * value ds := rfl
      obtain ⟨p₂, zn₂, hrun, hf₂, hn₂, hes₂, hN₂, hl₂, h0₂⟩ := runStep_of_left
        (p := { p₁ with nextSym := (d : Int), es := -1, N := 1 }) hd rfl
        (show (1 : Nat) < 2 ^ 21 by decide) (show 1 ≤ p₁.left by omega) h0₁
      have hN₂' : p₂.N = 2 := hN₂
      have hl₂' : p₂.left + 1 = p₁.left := hl₂
      obtain ⟨p₃, zn₃, hfeed, hf₃, hn₃, hes₃, hl₃, h0₃⟩ := feed_digits ver small ds
        { c with p := p₂ } zn₂ (fun e he => hlt e (List.mem_cons_of_mem _ he))
        (by dsimp only; rw [hN₂']; omega) (by dsimp only; omega) h0₂
      refine ⟨p₃, .get (.mtf .run zn₃), ?_, hf₃.trans (hf₂.trans hf₁),
        hn₃.trans (hn₂.trans hn₁), ?_⟩
      · rw [Core.feed, hdel, hsym, hrun]
        exact hfeed
      · unfold Pending
        rw [if_neg (by omega)]
        have hl₃' : p₃.left + ds.length = p₂.left := hl₃
        have hes₃' : p₃.es = p₂.es + p₂.N * value ds := hes₃
        refine ⟨h0₃, by omega, ?_, zn₃, rfl⟩
        rw [hes₃', hes₂, hN₂']
        push_cast
        omega

end

/-! ## 3. The block -/

/-- The bytes `done` stand in the first cells of the block, and they are what is counted. -/
structure Decoded {μ : Type} (small : Bool) (done : List Byte) (st : Store μ) : Prop where
  cell : ∀ x : Nat, x < done.length →
    if small then st.ll16 x = (done.getD x 0).setWidth 16
    else st.tt x = (done.getD x 0).setWidth 32
  counts : ∀ b : Nat, b < 256 → st.unzftab b = done.count (BitVec.ofNat 8 b)

section

variable {μ : Type}

theorem decoded_write {small : Bool} {done : List Byte} {st : Store μ} (es : Nat) (uc : Byte)
    (hcell : ∀ x : Nat, x < done.length →
      if small then st.ll16 x = (done.getD x 0).setWidth 16
      else st.tt x = (done.getD x 0).setWidth 32)
    (hcounts : ∀ b : Nat, b < 256 →
      st.unzftab b = (done ++ List.replicate es uc).count (BitVec.ofNat 8 b)) :
    Decoded small (done ++ List.replicate es uc) (st.write small done.length es uc) := by
  have hget : ∀ x : Nat, x < done.length + es → (done ++ List.replicate es uc).getD x 0 =
      if done.length ≤ x then uc else done.getD x 0 := by
    intro x hx
    by_cases h : done.length ≤ x
    · rw [if_pos h, List.getD_append_right _ _ _ _ h, List.getD_replicate _ (by omega)]
    · rw [if_neg h, List.getD_append _ _ _ _ (by omega)]
  unfold Store.write
  cases small with
  | true =>
    refine ⟨fun x hx => ?_, hcounts⟩
    rw [List.length_append, List.length_replicate] at hx
    rw [hget x hx, if_pos rfl, if_pos rfl]
    dsimp only
    rw [Cells.get_fill]
    by_cases h : done.length ≤ x
    · rw [if_pos h, if_pos (by omega)]
    · rw [if_neg h, if_neg (by omega)]
      exact hcell x (by omega)
  | false =>
    refine ⟨fun x hx => ?_, hcounts⟩
    rw [List.length_append, List.length_replicate] at hx
    rw [hget x hx, if_neg (by decide), if_neg (by decide)]
    dsimp only
    rw [Cells.get_fill]
    by_cases h : done.length ≤ x
    · rw [if_pos h, if_pos (by omega)]
    · rw [if_neg h, if_neg (by omega)]
      exact hcell x (by omega)

/-- The count of a byte after some more of them. -/
theorem decoded_count {small : Bool} {done : List Byte} {st : Store μ} (h : Decoded small done st)
    (es : Nat) (uc : Byte) {b : Nat} (hb : b < 256) :
    (st.addCount uc es).unzftab b =
      (done ++ List.replicate es uc).count (BitVec.ofNat 8 b) := by
  unfold Store.addCount
  dsimp only
  rw [List.count_append, List.count_replicate]
  by_cases e : b = uc.toNat
  · have he : (uc == BitVec.ofNat 8 b) = true := by
      rw [e, BitVec.ofNat_toNat, BitVec.setWidth_eq]
      exact beq_self_eq_true uc
    rw [if_pos he, e, Cells.get_set_self, h.counts _ uc.isLt]
    push_cast
    rfl
  · have he : (uc == BitVec.ofNat 8 b) = false := by
      rw [beq_eq_false_iff_ne]
      intro h
      rw [h, BitVec.toNat_ofNat] at e
      omega
    rw [he, Cells.get_set_of_ne _ (by omega), h.counts b hb]
    simp

variable [MtfList μ]

/-- **A run**, counted and written. -/
theorem Decoded.run {small : Bool} {done : List Byte} {st : Store μ}
    (h : Decoded small done st) (seqToUnseq : List Byte) (z : Nat) :
    Decoded small (done ++ List.replicate z (Store.unseq seqToUnseq (MtfList.front st.mtfa)))
      ((st.apply small seqToUnseq (.count z)).apply small seqToUnseq (.put done.length z)) :=
  decoded_write z _ h.cell fun _ hb => decoded_count h z _ hb

/-- **A literal**, counted and written. -/
theorem Decoded.literal {small : Bool} {done : List Byte} {st : Store μ}
    (h : Decoded small done st) (seqToUnseq : List Byte) (nn : Nat) :
    Decoded small (done ++ [Store.unseq seqToUnseq (MtfList.moveFront st.mtfa nn).1])
      (st.apply small seqToUnseq (.literal done.length nn)) := by
  have hst : Decoded small done { st with mtfa := (MtfList.moveFront st.mtfa nn).2 } :=
    ⟨h.cell, h.counts⟩
  exact decoded_write 1 _ hst.cell fun _ hb => decoded_count hst 1 _ hb

end

/-! ## 4. The symbols of a column -/

theorem write_mtfa {μ : Type} (small : Bool) (st : Store μ) (pos n : Nat) (uc : Byte) :
    (st.write small pos n uc).mtfa = st.mtfa := by
  unfold Store.write
  cases small <;> rfl

theorem symbol_seqToUnseq {p : Parse} (h : ¬(p.nextSym = bzRunA ∨ p.nextSym = bzRunB)) :
    p.symbol.1.seqToUnseq = p.seqToUnseq := by
  unfold Parse.symbol
  rw [if_neg h]
  split
  · rfl
  · split <;> rfl

/-- The symbol after a run closes it: the bytes of the run are in the block, and the symbol is at
    the loop's head. -/
theorem deliver_pending {small : Bool} {c : Core FlatMtf} {ctl : Ctl} {z m v : Nat}
    {done : List Byte} (h : Pending c.p ctl z (m + 1)) (hv : 2 ≤ v)
    (hd : Decoded small done c.store) (hn : c.p.nblock = done.length)
    (hroom : done.length + z ≤ c.p.nblockMAX) :
    ∃ c' : Core FlatMtf, c.deliver .qbz2 small ctl v =
        some (c'.absorb small ({ c'.p with nextSym := (v : Int) }.symbol)) ∧
      c'.p.fixed = c.p.fixed ∧ c'.p.nblock = done.length + z ∧ m ≤ c'.p.left ∧
      -1 ≤ c'.p.groupNo ∧
      Decoded small (done ++ List.replicate z
        (Store.unseq c.p.seqToUnseq (MtfList.front c.store.mtfa))) c'.store ∧
      c'.store.mtfa = c.store.mtfa ∧ c'.out = c.out ∧
      c'.calculatedCombinedCRC = c.calculatedCombinedCRC := by
  unfold Pending at h
  by_cases hz : z = 0
  · rw [if_pos hz] at h
    obtain ⟨p', he, hf, hn', hl, h0⟩ := deliver_fresh .qbz2 small h (v : Int)
    refine ⟨{ c with p := p' }, he, hf, by rw [hz]; exact hn'.trans hn, hl, h0, ?_, rfl, rfl, rfl⟩
    rw [hz, List.replicate_zero, List.append_nil]
    exact hd
  · rw [if_neg hz] at h
    obtain ⟨h0, hl, hes, zn, rfl⟩ := h
    have hes' : (c.p.es + 1).toNat = z := by omega
    refine ⟨{ c with
      p := { c.p with nextSym := (v : Int), es := c.p.es + 1, nblock := c.p.nblock + z }
      store := (c.store.apply small c.p.seqToUnseq (.count z)).apply small c.p.seqToUnseq
        (.put done.length z) }, ?_, rfl, by rw [← hn], Nat.le_of_succ_le_succ hl, h0,
      hd.run c.p.seqToUnseq z, write_mtfa _ _ _ _ _, rfl, rfl⟩
    have hnot : ¬((v : Int) = bzRunA ∨ (v : Int) = bzRunB) := by
      unfold bzRunA bzRunB
      omega
    unfold Core.deliver Parse.value
    dsimp only
    rw [if_neg hnot]
    unfold Parse.endRun
    dsimp only
    rw [hes', if_neg (by omega)]
    -- what the run does to the block, it does before the symbol
    obtain ⟨p', hp'⟩ : ∃ p' : Parse, p' =
      { c.p with nextSym := (v : Int), es := c.p.es + 1, nblock := c.p.nblock + z } := ⟨_, rfl⟩
    have hseq : p'.symbol.1.seqToUnseq = c.p.seqToUnseq := by
      rw [symbol_seqToUnseq (by rw [hp']; exact hnot), hp']
    rw [← hp']
    unfold Core.absorb
    dsimp only
    rw [List.foldl_cons, List.foldl_cons, hseq, hn]

/-- The parser at the loop's head, with a literal. -/
theorem symbol_literal {p : Parse} {v : Nat} (hv : 2 ≤ v) (hsym : p.nextSym = v)
    (hne : v ≠ p.eob) (hroom : p.nblock < p.nblockMAX) :
    p.symbol = ({ p with nblock := p.nblock + 1 }, [.literal p.nblock (v - 1)], .fast) := by
  unfold Parse.symbol
  rw [if_neg (by rw [hsym]; omega), if_neg (by rw [hsym]; unfold bzRunA bzRunB; omega),
    if_neg (by omega), hsym]
  congr 4
  omega

/-- The loop's head with `q` at the front of the MTF list, before `rest`, and `done` in the block. -/
structure AtHead (small : Bool) (seqToUnseq : List Byte) (nblockMAX : Nat) (rest q done : List Byte)
    (c : Core FlatMtf) : Prop where
  ne : q ≠ []
  mtfa : c.store.mtfa = q ++ rest
  seqToUnseq : c.p.seqToUnseq = seqToUnseq
  eob : c.p.eob = q.length + 1
  nblockMAX : c.p.nblockMAX = nblockMAX
  nblock : c.p.nblock = done.length
  block : Decoded small done c.store

section

variable {small : Bool} {seqToUnseq : List Byte} {nblockMAX : Nat} {rest q done : List Byte}
  {c : Core FlatMtf}

theorem AtHead.front (h : AtHead small seqToUnseq nblockMAX rest q done c) :
    MtfList.front c.store.mtfa = q.headD 0 := by
  rw [h.mtfa]
  cases q with
  | nil => exact absurd rfl h.ne
  | cons a q => rfl

/-- **A run and the symbol behind it**: the bytes of the run are in the block, and the symbol is at
    the loop's head. -/
theorem AtHead.run {ctl : Ctl} {z m v : Nat} (h : AtHead small seqToUnseq nblockMAX rest q done c)
    (hfresh : Fresh c.p ctl ((digits z).length + (m + 1))) (hz : z < 2 ^ 21) (hv : 2 ≤ v)
    (hroom : done.length + z ≤ nblockMAX) :
    ∃ c₁ : Core FlatMtf, (∀ vs, Core.feed .qbz2 small (c, ctl) (digits z ++ v :: vs) =
        Core.feed .qbz2 small (c₁.absorb small ({ c₁.p with nextSym := (v : Int) }.symbol)) vs) ∧
      AtHead small seqToUnseq nblockMAX rest q
        (done ++ List.replicate z (Store.unseq seqToUnseq (q.headD 0))) c₁ ∧
      c₁.p.fixed = c.p.fixed ∧ m ≤ c₁.p.left ∧ -1 ≤ c₁.p.groupNo ∧ c₁.out = c.out ∧
      c₁.calculatedCombinedCRC = c.calculatedCombinedCRC := by
  have hlen := List.length_pos_of_ne_nil h.ne
  have heob := h.eob
  have hmax := h.nblockMAX
  obtain ⟨p, ctl₁, hfeed, hf, hn, hpend⟩ := feed_run .qbz2 small (m := m) hfresh hz (by omega)
  have hmax₁ : p.nblockMAX = c.p.nblockMAX := Parse.fixed_eq Parse.nblockMAX hf fun _ => rfl
  have hseq₁ : p.seqToUnseq = c.p.seqToUnseq := Parse.fixed_eq Parse.seqToUnseq hf fun _ => rfl
  obtain ⟨c₁, hdel, hf₁, hn₁, hleft, hgroup, hd, hmtf, hout, hcrc⟩ :=
    deliver_pending (c := { c with p := p }) hpend hv h.block (hn.trans h.nblock)
      (by dsimp only; omega)
  have hfixed : c₁.p.fixed = c.p.fixed := hf₁.trans hf
  dsimp only at hd hmtf
  rw [hseq₁, h.seqToUnseq, h.front] at hd
  refine ⟨c₁, fun vs => ?_, ⟨h.ne, hmtf.trans h.mtfa, ?_, ?_, ?_, ?_, hd⟩, hfixed, hleft, hgroup,
    hout, hcrc⟩
  · rw [feed_append, hfeed, Option.bind_some, Core.feed, hdel]
  · exact (Parse.fixed_eq Parse.seqToUnseq hfixed fun _ => rfl).trans h.seqToUnseq
  · exact (Parse.fixed_eq Parse.eob hfixed fun _ => rfl).trans heob
  · exact (Parse.fixed_eq Parse.nblockMAX hfixed fun _ => rfl).trans hmax
  · rw [hn₁, List.length_append, List.length_replicate]

/-- **A literal**: the byte it stands for is in the block, and at the front of the list. -/
theorem AtHead.literal {b : Byte} (h : AtHead small seqToUnseq nblockMAX rest q done c) (hb : b ∈ q)
    (hhead : q.head? ≠ some b) (hroom : done.length < nblockMAX) :
    ∃ c₁ : Core FlatMtf,
      c.absorb small ({ c.p with nextSym := ((q.idxOf b + 1 : Nat) : Int) }.symbol) = (c₁, .fast) ∧
      AtHead small seqToUnseq nblockMAX rest (toFront q b) (done ++ [Store.unseq seqToUnseq b]) c₁ ∧
      c₁.p.fixed = c.p.fixed ∧ c₁.p.left = c.p.left ∧ c₁.p.groupNo = c.p.groupNo ∧
      c₁.out = c.out ∧ c₁.calculatedCombinedCRC = c.calculatedCombinedCRC := by
  have hidx := List.idxOf_lt_length_of_mem hb
  have hpos := idxOf_pos hhead hb
  have heob := h.eob
  have hmax := h.nblockMAX
  have hn := h.nblock
  have hsymbol := symbol_literal (p := { c.p with nextSym := ((q.idxOf b + 1 : Nat) : Int) })
    (v := q.idxOf b + 1) (by omega) rfl (by dsimp only; omega) (by dsimp only; omega)
  rw [Nat.add_sub_cancel] at hsymbol
  -- the byte taken from the list
  have hget : (q ++ rest).getD (q.idxOf b) 0 = b := by
    rw [List.getD_append _ _ _ _ hidx, List.getD_eq_getElem _ _ hidx, List.getElem_idxOf]
  have hlit : Decoded small (done ++ [Store.unseq c.p.seqToUnseq (c.store.mtfa.getD (q.idxOf b) 0)])
      (c.store.apply small c.p.seqToUnseq (.literal done.length (q.idxOf b))) :=
    h.block.literal c.p.seqToUnseq (q.idxOf b)
  rw [h.mtfa, hget, h.seqToUnseq, ← hn] at hlit
  have hmove : (c.store.apply small seqToUnseq (.literal c.p.nblock (q.idxOf b))).mtfa =
      toFront q b ++ rest := by
    refine (write_mtfa _ _ _ _ _).trans ?_
    show (c.store.mtfa.getD (q.idxOf b) 0 :: (c.store.mtfa.take (q.idxOf b) ++
      c.store.mtfa.drop (q.idxOf b + 1))) = _
    have hfront := toFront_eq_take_drop (q ++ rest) b
    rw [List.idxOf_append_of_mem hb] at hfront
    rw [h.mtfa, hget, ← hfront, toFront_append hb]
  rw [hsymbol]
  refine ⟨_, rfl, ⟨List.cons_ne_nil _ _, ?_, h.seqToUnseq, ?_, hmax, ?_, ?_⟩, rfl, rfl, rfl, rfl, rfl⟩
  · rw [← hmove, ← h.seqToUnseq]
    rfl
  · rw [length_toFront hb]
    exact heob
  · rw [List.length_append, ← hn]
    rfl
  · rw [← h.seqToUnseq] at hlit ⊢
    exact hlit

/-- **`EOB`** ends the loop. -/
theorem AtHead.leave (h : AtHead small seqToUnseq nblockMAX rest q done c) :
    c.absorb small ({ c.p with nextSym := ((q.length + 1 : Nat) : Int) }.symbol) =
      ({ c with p := { c.p with nextSym := ((q.length + 1 : Nat) : Int) } }, .block) := by
  unfold Parse.symbol
  rw [if_pos (by rw [h.eob])]
  rfl

end

/-- **The symbols of a column.** From the head of the loop, with `q` at the front of the MTF list:
    fed with the symbols of the column `cs` after `z` zeros, and with `EOB`, the loop ends, and the
    bytes that stand for the `z` zeros and for `cs` have been added to the block. -/
theorem feed_coded {small : Bool} {seqToUnseq : List Byte} {nblockMAX : Nat} {rest : List Byte} :
    ∀ (cs q : List Byte) (z : Nat) (c : Core FlatMtf) (ctl : Ctl) (done : List Byte),
    (∀ b ∈ cs, b ∈ q) → AtHead small seqToUnseq nblockMAX rest q done c →
    done.length + z + cs.length ≤ nblockMAX → z + cs.length < 2 ^ 21 →
    Fresh c.p ctl ((coded q z cs).length + 1) →
    ∃ c' : Core FlatMtf, Core.feed .qbz2 small (c, ctl) (coded q z cs ++ [q.length + 1]) =
        some (c', .block) ∧
      c'.p.fixed = c.p.fixed ∧ c'.p.nblock = done.length + z + cs.length ∧
      Decoded small (done ++ List.replicate z (Store.unseq seqToUnseq (q.headD 0)) ++
        cs.map (Store.unseq seqToUnseq)) c'.store ∧
      c'.out = c.out ∧ c'.calculatedCombinedCRC = c.calculatedCombinedCRC := by
  intro cs
  induction cs with
  | nil =>
    intro q z c ctl done _ h hroom hz hfresh
    rw [coded_nil] at hfresh ⊢
    have hlen := List.length_pos_of_ne_nil h.ne
    rw [List.length_nil] at hroom hz
    obtain ⟨c₁, hfeed, h₁, hf, -, -, hout, hcrc⟩ := h.run (m := 0) hfresh hz
      (show 2 ≤ q.length + 1 by omega) hroom
    refine ⟨_, (hfeed []).trans (congrArg some h₁.leave), hf, ?_, ?_, hout, hcrc⟩
    · show c₁.p.nblock = _
      rw [h₁.nblock, List.length_append, List.length_replicate]
      rfl
    · rw [List.map_nil, List.append_nil]
      exact h₁.block
  | cons b cs ih =>
    intro q z c ctl done hmem h hroom hz hfresh
    have hb : b ∈ q := hmem b List.mem_cons_self
    have hcs : ∀ d ∈ cs, d ∈ q := fun d hd => hmem d (List.mem_cons_of_mem _ hd)
    rw [List.length_cons] at hroom hz
    rw [coded_cons] at hfresh ⊢
    by_cases hhead : q.head? = some b
    · -- a zero more
      rw [if_pos hhead] at hfresh ⊢
      obtain ⟨c', hfeed, hf, hn', hd', ho', hc'⟩ := ih q (z + 1) c ctl done hcs h (by omega)
        (by omega) hfresh
      refine ⟨c', hfeed, hf, by rw [hn', List.length_cons]; omega, ?_, ho', hc'⟩
      have hb' : q.headD 0 = b := by rw [List.headD_eq_head?_getD, hhead]; rfl
      rw [hb'] at hd' ⊢
      rw [List.replicate_succ', ← List.append_assoc, List.append_assoc _ [_]] at hd'
      exact hd'
    · -- the run before it, and the byte
      rw [if_neg hhead] at hfresh ⊢
      rw [List.length_append, List.length_cons] at hfresh
      have hpos := idxOf_pos hhead hb
      obtain ⟨c₁, hfeed₁, h₁, hf₁, hl₁, hg₁, ho₁, hc₁⟩ := h.run
        (m := (coded (toFront q b) 0 cs).length + 1) (v := q.idxOf b + 1) hfresh (by omega) (by omega)
        (by omega)
      have hdone : (done ++ List.replicate z (Store.unseq seqToUnseq (q.headD 0))).length =
          done.length + z := by
        rw [List.length_append, List.length_replicate]
      obtain ⟨c₂, hsym, h₂, hf₂, hl₂, hg₂, ho₂, hc₂⟩ := h₁.literal hb hhead (by omega)
      obtain ⟨c', hfeed, hf, hn', hd', ho', hc'⟩ := ih (toFront q b) 0 c₂ .fast _
        (fun d hd => (toFront_perm hb).mem_iff.mpr (hcs d hd)) h₂
        (by rw [List.length_append, hdone, List.length_singleton]; omega) (by omega)
        ⟨by rw [hg₂]; exact hg₁, .inr ⟨rfl, by rw [hl₂]; exact hl₁⟩⟩
      refine ⟨c', ?_, hf.trans (hf₂.trans hf₁), ?_, ?_, ho'.trans (ho₂.trans ho₁),
        hc'.trans (hc₂.trans hc₁)⟩
      · rw [List.append_assoc, List.cons_append, hfeed₁, hsym, ← length_toFront hb]
        exact hfeed
      · rw [hn', List.length_append, hdone, List.length_singleton, List.length_cons]
        omega
      · rw [List.replicate_zero, List.append_nil, List.append_assoc _ [_]] at hd'
        exact hd'

end Qbz2
