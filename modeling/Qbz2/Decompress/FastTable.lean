/-
  File:      Qbz2/Decompress/FastTable.lean
  Subject:   The two-level table of `decompress.c` never decodes anything but what `GET_MTF_VAL`
             decodes.

  * `peek_add` -- reading ahead in the buffer, in pieces;
  * `Entry` -- an entry that may stand at a place of a table: a code that the place extends;
  * `TableSound` -- all entries of both levels are of that kind; `fastStep_inv` keeps it, from
    symbol to symbol, and `buildTables_sound` is its result;
  * `tableLookup_getMtfVal` -- a hit is what `GET_MTF_VAL` reads on the same bits;
  * `overSubscribed_abandons` -- more codes than fit leave the table empty.
-/
import Qbz2.Decompress.Tables

namespace Qbz2

open Loop (forUpto forUpto_succ forUpto_inv)
open Canonical

/-! ## 1. Reading ahead -/

namespace BitBuf

theorem field_eq (b : BitBuf) (shift : Nat) {n : Nat} (hn : n ≤ 64) :
    b.field shift n = b.bsBuff.toNat / 2 ^ shift % 2 ^ n := by
  have hlt : 2 ^ n - 1 < 2 ^ 64 := by
    have h := Nat.pow_le_pow_right (n := 2) (by omega) hn
    have h' := Nat.two_pow_pos n
    omega
  rw [field, BitVec.toNat_and, BitVec.toNat_ushiftRight, BitVec.toNat_ofNat,
    Nat.mod_eq_of_lt hlt, Nat.and_two_pow_sub_one_eq_mod, Nat.shiftRight_eq_div_pow]

theorem peek_lt (b : BitBuf) {n : Nat} (hn : n ≤ 64) : b.peek n < 2 ^ n := by
  rw [peek, field_eq b _ hn]
  exact Nat.mod_lt _ (Nat.two_pow_pos n)

/-- **Reading `z + n` bits is reading `z`, then `n`.** -/
theorem peek_add (b : BitBuf) {z n : Nat} (h : z + n ≤ b.bsLive) (h64 : z + n ≤ 64) :
    b.peek (z + n) = b.peek z * 2 ^ n + (b.skip z).peek n := by
  have e : b.bsLive - z = b.bsLive - (z + n) + n := by omega
  have e' : b.bsLive - z - n = b.bsLive - (z + n) := by omega
  rw [peek, peek, peek, field_eq b _ h64, field_eq b _ (by omega), field_eq _ _ (by omega), skip]
  dsimp only
  rw [e', e, Nat.pow_add 2 z n, Nat.mul_comm (2 ^ z) (2 ^ n), Nat.mod_mul,
    Nat.pow_add 2 _ n, Nat.div_div_eq_div_mul, Nat.mul_comm (2 ^ n), Nat.add_comm]

theorem peek_div (b : BitBuf) {L w : Nat} (hL : L ≤ w) (h : w ≤ b.bsLive) (h64 : w ≤ 64) :
    b.peek w / 2 ^ (w - L) = b.peek L := by
  have e : L + (w - L) = w := by omega
  have ha := b.peek_add (z := L) (n := w - L) (by omega) (by omega)
  have hlt := (b.skip L).peek_lt (n := w - L) (by omega)
  rw [e] at ha
  rw [ha, Nat.mul_comm, Nat.mul_add_div (Nat.two_pow_pos _), Nat.div_eq_of_lt hlt, Nat.add_zero]

@[simp] theorem skip_bsLive (b : BitBuf) (n : Nat) : (b.skip n).bsLive = b.bsLive - n := rfl

theorem skip_skip (b : BitBuf) (m n : Nat) : (b.skip m).skip n = b.skip (m + n) := by
  rw [skip, skip, skip]
  dsimp only
  rw [Nat.sub_sub]

end BitBuf

/-! ## 2. What an entry may say -/

/-- An entry that may stand at place `v` of a table of `w` bits: the code of some place before
    `q`, which `v` extends. -/
def Entry (n : Nat) (len : Nat → Nat) (perm : Int → Int) (q w v : Nat) (e : Int) : Prop :=
  ∃ p L, p < q ∧ At len n p L ∧ L ≤ w ∧ 0 < e ∧ e = packEntry L (perm p) ∧
    codeOf len n p L = v / 2 ^ (w - L)

/-- The mark of a prefix whose codes are in the overflow area from `off` on. -/
def marker (me off : Nat) : Int := -(1 + (off : Int) * 16 + me)

/-- The two levels, with only codes of places before `q` in them. -/
structure SlotsOk (n : Nat) (len : Nat → Nat) (perm : Int → Int) (me q : Nat) (used : Nat)
    (tbl ovf : Int → Int) : Prop where
  slot : ∀ v : Nat, v < 2048 → tbl v = 0 ∨ Entry n len perm q 11 v (tbl v) ∨
    ∃ off, tbl v = marker me off ∧ off + 2 ^ me ≤ used
  sub : ∀ v off : Nat, v < 2048 → tbl v = marker me off →
    ∀ x : Nat, x < 2 ^ me → ovf ((off + x : Nat) : Int) = 0 ∨
      Entry n len perm q (11 + me) (v * 2 ^ me + x) (ovf ((off + x : Nat) : Int))
  apart : ∀ v v' off off' : Nat, v < 2048 → v' < 2048 → v ≠ v' → tbl v = marker me off →
    tbl v' = marker me off' → off + 2 ^ me ≤ off' ∨ off' + 2 ^ me ≤ off

section Group

variable {n m M : Nat} {length : Int → Int} {len : Nat → Nat} {perm : Cells Int}

theorem Entry.mono {perm : Int → Int} {q q' w v : Nat} {e : Int} (h : Entry n len perm q w v e)
    (hq : q ≤ q') : Entry n len perm q' w v e := by
  obtain ⟨p, L, hp, hrest⟩ := h
  exact ⟨p, L, Nat.lt_of_lt_of_le hp hq, hrest⟩

theorem Entry.pos {perm : Int → Int} {q w v : Nat} {e : Int} (h : Entry n len perm q w v e) :
    0 < e := by
  obtain ⟨_, _, _, _, _, h0, _⟩ := h
  exact h0

theorem packEntry_pos {L : Nat} {sym : Int} (hL : 1 ≤ L) (hs : 0 ≤ sym) : 0 < packEntry L sym := by
  unfold packEntry
  omega

theorem marker_neg (me off : Nat) : marker me off < 0 := by
  unfold marker
  omega

theorem marker_inj {me off off' : Nat} (h : marker me off = marker me off') : off = off' := by
  unfold marker at h
  omega

/-- The place of a symbol in `perm` tells its length. -/
theorem PermUpto.sym (hp : PermUpto n len perm n) (hl : Lengths n length len) {q : Nat}
    (hq : q < n) : ∃ s, s < n ∧ perm q = (s : Int) ∧ length (perm q) = len s ∧ At len n q (len s) := by
  obtain ⟨s, hs, hps, hr⟩ := hp q hq
  refine ⟨s, hs, hps, ?_, ?_⟩
  · rw [hps, hl.cast s hs]
  · rw [← hr]
    exact rank_at hs

theorem PermUpto.nonneg (hp : PermUpto n len perm n) {q : Nat} (hq : q < n) : 0 ≤ perm q := by
  obtain ⟨s, _, hps, _⟩ := hp q hq
  omega

/-! ## 3. One symbol -/

/-- The construction stands before place `q`. -/
structure FastInv (n : Nat) (len : Nat → Nat) (perm : Int → Int) (me q : Nat) (s : FastState) :
    Prop where
  code : ∃ l : Nat, s.curLen = l ∧ countLt len l n ≤ q ∧ q ≤ countLt len (l + 1) n ∧
    s.codeVal = codeOf len n q l
  slots : ∃ used : Nat, s.ovfUsed = used ∧ used ≤ 512 ∧
    SlotsOk n len perm me q used s.tbl s.ovf

/-- Raising the length to that of the place turns `code_val` into the place's code. -/
theorem raiseLen_spec {q L : Nat} {s : FastState} (hL : At len n q L)
    (h : ∃ l : Nat, s.curLen = l ∧ countLt len l n ≤ q ∧ q ≤ countLt len (l + 1) n ∧
      s.codeVal = codeOf len n q l) :
    raiseLen L s = { s with codeVal := (codeOf len n q L : Int), curLen := (L : Int) } := by
  obtain ⟨l, hl, hlo, hhi, hc⟩ := h
  have hle : l ≤ L := by
    by_contra hlt
    have hmono : countLt len (L + 1) n ≤ countLt len l n := countLt_mono (by omega) n
    have := hL.2
    omega
  have key : ∀ k, l + k ≤ L →
      forUpto k (fun _ (s : FastState) =>
        { s with codeVal := s.codeVal * 2, curLen := s.curLen + 1 }) s =
        { s with codeVal := (codeOf len n q (l + k) : Int), curLen := ((l + k : Nat) : Int) } ∧
      countLt len (l + k) n ≤ q ∧ q ≤ countLt len (l + k + 1) n := by
    intro k
    induction k with
    | zero =>
      intro _
      rw [Loop.forUpto_zero, Nat.add_zero, ← hc, ← hl]
      exact ⟨rfl, hlo, hhi⟩
    | succ k ih =>
      intro hk
      obtain ⟨he, hlo', hhi'⟩ := ih (by omega)
      have hq : q = countLt len (l + k + 1) n := by
        have hmono : countLt len (l + k + 1) n ≤ countLt len L n := countLt_mono (by omega) n
        have := hL.1
        omega
      have hcode : codeOf len n q (l + k) * 2 = codeOf len n q (l + k + 1) := by
        have hs := @countLt_succ len (l + k) n
        rw [codeOf, codeOf, firstCode, ← hq, Nat.sub_self]
        omega
      rw [forUpto_succ, he]
      rw [← Nat.add_assoc]
      refine ⟨?_, by omega, ?_⟩
      · dsimp only
        rw [← hcode]
        rfl
      · rw [hq]
        exact countLt_mono (by omega) n
  have hsub : ((L : Int) - s.curLen).toNat = L - l := by omega
  have hL' : l + (L - l) = L := by omega
  rw [raiseLen, hsub, (key (L - l) (by omega)).1, hL']

/-- The first part of the invariant after a place. -/
theorem code_next {q L : Nat} (hL : At len n q L) {s : FastState} (h1 : s.curLen = (L : Int))
    (h2 : s.codeVal = codeOf len n q L) :
    ∃ l : Nat, s.next.curLen = l ∧ countLt len l n ≤ q + 1 ∧ q + 1 ≤ countLt len (l + 1) n ∧
      s.next.codeVal = codeOf len n (q + 1) l := by
  obtain ⟨hlo, hhi⟩ := hL
  refine ⟨L, h1, by omega, hhi, ?_⟩
  rw [FastState.next]
  dsimp only
  rw [h2, codeOf, codeOf]
  omega

theorem SlotsOk.mono {perm tbl ovf : Int → Int} {me q q' used : Nat}
    (h : SlotsOk n len perm me q used tbl ovf) (hq : q ≤ q') :
    SlotsOk n len perm me q' used tbl ovf where
  slot v hv := by
    rcases h.slot v hv with h0 | he | hm
    · exact Or.inl h0
    · exact Or.inr (Or.inl (he.mono hq))
    · exact Or.inr (Or.inr hm)
  sub v off hv hm x hx := by
    rcases h.sub v off hv hm x hx with h0 | he
    · exact Or.inl h0
    · exact Or.inr (he.mono hq)
  apart := h.apart

/-- A stretch of the primary table receives a code. -/
theorem SlotsOk.fillPrimary {tbl ovf : Cells Int} {me q used L : Nat}
    (h : SlotsOk n len perm me q used tbl ovf) (hL : At len n q L) (h1 : 1 ≤ L) (h11 : L ≤ 11)
    (hs : 0 ≤ perm q) :
    SlotsOk n len perm me (q + 1) used
      (tbl.fill ((codeOf len n q L * 2 ^ (11 - L) : Nat) : Int) (2 ^ (11 - L))
        (packEntry L (perm q))) ovf := by
  have h' := h.mono (Nat.le_succ q)
  have hpos := packEntry_pos h1 hs
  -- a mark of the new table was one of the old table
  have hold : ∀ v off : Nat,
      (tbl.fill ((codeOf len n q L * 2 ^ (11 - L) : Nat) : Int) (2 ^ (11 - L))
        (packEntry L (perm q))) v = marker me off → tbl v = marker me off := by
    intro v off hm
    have hneg := marker_neg me off
    rw [Cells.get_fill] at hm
    split at hm
    · omega
    · exact hm
  refine ⟨fun v hv => ?_, fun v off hv hm => h'.sub v off hv (hold v off hm),
    fun v v' off off' hv hv' hne hm hm' =>
      h.apart v v' off off' hv hv' hne (hold v off hm) (hold v' off' hm')⟩
  rw [Cells.get_fill]
  split
  · rename_i hin
    refine Or.inr (Or.inl ⟨q, L, Nat.lt_succ_self q, hL, h11, hpos, rfl, ?_⟩)
    symm
    rw [Nat.div_eq_iff (Nat.two_pow_pos _)]
    have hp := Nat.two_pow_pos (11 - L)
    generalize 2 ^ (11 - L) = p at hin hp ⊢
    constructor
    · omega
    · have : codeOf len n q L * p + p ≤ codeOf len n q L * p + p := Nat.le_refl _
      omega
  · exact h'.slot v hv

/-- The sub-tables in use end before the free part of the overflow area. -/
theorem SlotsOk.end_le {perm tbl ovf : Int → Int} {me q used : Nat}
    (h : SlotsOk n len perm me q used tbl ovf) {v off : Nat} (hv : v < 2048)
    (hm : tbl v = marker me off) : off + 2 ^ me ≤ used := by
  have hneg := marker_neg me off
  rcases h.slot v hv with h0 | he | ⟨off', hm', hle⟩
  · omega
  · have := he.pos
    omega
  · rw [hm] at hm'
    rw [marker_inj hm']
    exact hle

/-- A prefix without a sub-table receives the next free one, cleared. -/
theorem SlotsOk.alloc {tbl ovf : Cells Int} {me q used pfx : Nat}
    (h : SlotsOk n len perm me q used tbl ovf) :
    SlotsOk n len perm me q (used + 2 ^ me) (tbl.set pfx (marker me used))
      (ovf.fill used (2 ^ me) 0) := by
  have hp := Nat.two_pow_pos me
  -- what a mark of the new table was in the old one
  have hold : ∀ v off : Nat, (tbl.set pfx (marker me used)) v = marker me off →
      (v = pfx ∧ off = used) ∨ (v ≠ pfx ∧ tbl v = marker me off) := by
    intro v off hm
    rw [Cells.get_set] at hm
    split at hm
    · exact Or.inl ⟨by omega, (marker_inj hm).symm⟩
    · exact Or.inr ⟨by omega, hm⟩
  refine ⟨fun v hv => ?_, fun v off hv hm x hx => ?_, fun v v' off off' hv hv' hne hm hm' => ?_⟩
  · rw [Cells.get_set]
    split
    · exact Or.inr (Or.inr ⟨used, rfl, Nat.le_refl _⟩)
    · rcases h.slot v hv with h0 | he | ⟨off, hm, hle⟩
      · exact Or.inl h0
      · exact Or.inr (Or.inl he)
      · exact Or.inr (Or.inr ⟨off, hm, by omega⟩)
  · rw [Cells.get_fill]
    rcases hold v off hm with ⟨_, rfl⟩ | ⟨_, hm⟩
    · rw [if_pos (by omega)]
      exact Or.inl rfl
    · have hle := h.end_le hv hm
      rw [if_neg (by omega)]
      exact h.sub v off hv hm x hx
  · rcases hold v off hm with ⟨rfl, rfl⟩ | ⟨_, h1⟩ <;>
      rcases hold v' off' hm' with ⟨rfl, rfl⟩ | ⟨_, h2⟩
    · exact absurd rfl hne
    · exact Or.inr (h.end_le hv' h2)
    · exact Or.inl (h.end_le hv h1)
    · exact h.apart v v' off off' hv hv' hne h1 h2

/-- A code longer than 11 bits enters the sub-table of its prefix. -/
theorem SlotsOk.fillOverflow {tbl ovf : Cells Int} {me q used L pfx suffix off : Nat}
    (h : SlotsOk n len perm me q used tbl ovf) (hL : At len n q L) (h11 : 11 < L)
    (hme : L ≤ 11 + me) (hs : 0 ≤ perm q) (hpfx : pfx < 2048) (hm : tbl pfx = marker me off)
    (hcode : codeOf len n q L = pfx * 2 ^ (L - 11) + suffix) (hsuf : suffix < 2 ^ (L - 11)) :
    SlotsOk n len perm me (q + 1) used tbl
      (ovf.fill ((off + suffix * 2 ^ (11 + me - L) : Nat) : Int) (2 ^ (11 + me - L))
        (packEntry L (perm q))) := by
  have h' := h.mono (Nat.le_succ q)
  have hpos : 0 < packEntry L (perm q) := packEntry_pos (by omega) hs
  have hpow : 2 ^ (L - 11) * 2 ^ (11 + me - L) = 2 ^ me := by
    rw [← Nat.pow_add]
    congr 1
    omega
  have hfit : suffix * 2 ^ (11 + me - L) + 2 ^ (11 + me - L) ≤ 2 ^ me := by
    rw [← hpow, ← Nat.succ_mul]
    exact Nat.mul_le_mul_right _ hsuf
  refine ⟨h'.slot, fun v off' hv hm' x hx => ?_, h.apart⟩
  rw [Cells.get_fill]
  split
  · rename_i hin
    -- only the prefix's own sub-table is touched
    have hv' : v = pfx := by
      by_contra hne
      have hap := h.apart v pfx off' off hv hpfx hne hm' hm
      omega
    subst hv'
    have hoff : off' = off := marker_inj (hm'.symm.trans hm)
    subst hoff
    refine Or.inr ⟨q, L, Nat.lt_succ_self q, hL, hme, hpos, rfl, ?_⟩
    have hx' : x / 2 ^ (11 + me - L) = suffix := by
      rw [Nat.div_eq_iff (Nat.two_pow_pos _)]
      have hp := Nat.two_pow_pos (11 + me - L)
      omega
    rw [hcode, ← hpow, ← Nat.mul_assoc, Nat.mul_comm (v * _), Nat.mul_add_div (Nat.two_pow_pos _),
      hx']
  · exact h'.sub v off' hv hm' x hx

/-- The prefix of a long code has no short code in its slot. -/
theorem SlotsOk.prefix_slot {perm tbl ovf : Int → Int} {me q used L pfx : Nat}
    (h : SlotsOk n len perm me q used tbl ovf) (hL : At len n q L) (h11 : 11 < L)
    (hpfx : pfx < 2048) (hcode : codeOf len n q L / 2 ^ (L - 11) = pfx) :
    tbl pfx = 0 ∨ ∃ off, tbl pfx = marker me off := by
  rcases h.slot pfx hpfx with h0 | he | ⟨off, hm, _⟩
  · exact Or.inl h0
  · obtain ⟨p, L', hp, hL', h11', _, _, hc⟩ := he
    exfalso
    have hmono := codeOf_mono hL' hL hp
    have hlt : pfx < (codeOf len n p L' + 1) * 2 ^ (11 - L') := by
      rw [hc, Nat.mul_comm]
      exact Nat.lt_mul_div_succ pfx (Nat.two_pow_pos _)
    have hle : (codeOf len n p L' + 1) * 2 ^ (11 - L') ≤ codeOf len n q L / 2 ^ (L - 11) := by
      rw [Nat.le_div_iff_mul_le (Nat.two_pow_pos _), Nat.mul_assoc, ← Nat.pow_add]
      have e : 11 - L' + (L - 11) = L - L' := by omega
      rw [e]
      exact hmono
    omega
  · exact Or.inr ⟨off, hm⟩

/-- The primary case of one symbol. -/
theorem fillPrimary_spec {q L me : Nat} {s s' : FastState} (hL : At len n q L) (h1 : 1 ≤ L)
    (h11 : L ≤ 11) (hs : 0 ≤ perm q) (hc : s.codeVal = codeOf len n q L) (hl : s.curLen = (L : Int))
    (hsl : ∃ used : Nat, s.ovfUsed = used ∧ used ≤ 512 ∧ SlotsOk n len perm me q used s.tbl s.ovf)
    (h : (fillPrimary L (perm q) s).map FastState.next = .ok s') :
    FastInv n len perm me (q + 1) s' ∧ codeOf len n q L < 2 ^ L := by
  obtain ⟨used, hu, hu512, hok⟩ := hsl
  have hpad : ((bzDecodeTableBits : Int) - (L : Int)).toNat = 11 - L := by
    rw [bzDecodeTableBits]
    omega
  have hidx : s.codeVal * 2 ^ (11 - L) = ((codeOf len n q L * 2 ^ (11 - L) : Nat) : Int) := by
    rw [hc]
    push_cast
    rfl
  unfold fillPrimary at h
  rw [hpad] at h
  dsimp only at h
  rw [hidx] at h
  split at h
  · cases h
  · rename_i hfit
    cases h
    refine ⟨⟨code_next hL hl hc, used, hu, hu512, hok.fillPrimary hL h1 h11 hs⟩, ?_⟩
    have hle : (codeOf len n q L + 1) * 2 ^ (11 - L) ≤ 2 ^ L * 2 ^ (11 - L) := by
      have e : L + (11 - L) = bzDecodeTableBits := by
        rw [bzDecodeTableBits]
        omega
      rw [← Nat.pow_add, e, Nat.succ_mul]
      have hcast : ((2 ^ bzDecodeTableBits : Nat) : Int) = 2 ^ bzDecodeTableBits := by norm_cast
      omega
    exact Nat.le_of_mul_le_mul_right hle (Nat.two_pow_pos _)

/-- The sub-table the source settles on for a prefix. -/
theorem overflowSlot_spec {q L pfx : Nat} {s s' : FastState} (hL : At len n q L) (h11 : 11 < L)
    (hM : L ≤ M) (hpfx : pfx < 2048) (hcode : codeOf len n q L / 2 ^ (L - 11) = pfx)
    (hsl : ∃ used : Nat, s.ovfUsed = used ∧ used ≤ 512 ∧
      SlotsOk n len perm (M - 11) q used s.tbl s.ovf)
    (h : overflowSlot M pfx s = some s') :
    s'.codeVal = s.codeVal ∧ s'.curLen = s.curLen ∧
      ∃ used off : Nat, s'.ovfUsed = used ∧ used ≤ 512 ∧
        SlotsOk n len perm (M - 11) q used s'.tbl s'.ovf ∧
        s'.tbl pfx = marker (M - 11) off ∧ off + 2 ^ (M - 11) ≤ used := by
  obtain ⟨used, hu, hu512, hok⟩ := hsl
  have hextra : (if (M : Int) - bzDecodeTableBits ≤ 0 then 1 else (M : Int) - bzDecodeTableBits) =
      ((M - 11 : Nat) : Int) := by
    rw [bzDecodeTableBits, if_neg (by omega)]
    omega
  unfold overflowSlot at h
  split at h
  · rw [hextra] at h
    dsimp only at h
    rw [Int.toNat_natCast] at h
    split at h
    · cases h
    · rename_i hfit
      cases h
      have hmark : -(1 + s.ovfUsed * 16 + ((M - 11 : Nat) : Int)) = marker (M - 11) used := by
        rw [marker, hu]
      rw [overflowSize, hu] at hfit
      refine ⟨rfl, rfl, used + 2 ^ (M - 11), used, ?_, by omega, ?_, ?_, Nat.le_refl _⟩
      · dsimp only
        rw [hu]
        rfl
      · dsimp only
        rw [hmark, hu]
        exact hok.alloc
      · dsimp only
        rw [hmark, Cells.get_set_self]
  · rename_i hne
    cases h
    rcases hok.prefix_slot hL h11 hpfx hcode with h0 | ⟨off, hm⟩
    · exact absurd h0 hne
    · exact ⟨rfl, rfl, used, off, hu, hu512, hok, hm, hok.end_le hpfx hm⟩

/-- The overflow case of one symbol. -/
theorem fillOverflow_spec {q L pfx suffix off used : Nat} {s s' : FastState} (hL : At len n q L)
    (h11 : 11 < L) (hM : L ≤ M) (hM20 : M ≤ 20) (hs : 0 ≤ perm q) (hpfx : pfx < 2048)
    (hc : s.codeVal = codeOf len n q L) (hl : s.curLen = (L : Int))
    (hcode : codeOf len n q L = pfx * 2 ^ (L - 11) + suffix) (hsuf : suffix < 2 ^ (L - 11))
    (hu : s.ovfUsed = used) (hu512 : used ≤ 512)
    (hok : SlotsOk n len perm (M - 11) q used s.tbl s.ovf) (hm : s.tbl pfx = marker (M - 11) off)
    (h : (fillOverflow L (perm q) pfx suffix ((L : Int) - bzDecodeTableBits) s).map
      FastState.next = .ok s') : FastInv n len perm (M - 11) (q + 1) s' := by
  have hmk : -(s.tbl pfx + 1) = (off : Int) * 16 + ((M - 11 : Nat) : Int) := by
    rw [hm, marker]
    omega
  have hextra : ((off : Int) * 16 + ((M - 11 : Nat) : Int)) % 16 = ((M - 11 : Nat) : Int) := by
    omega
  have hoff : ((off : Int) * 16 + ((M - 11 : Nat) : Int)) / 16 = (off : Int) := by
    omega
  have hpad : ((M - 11 : Nat) : Int) - ((L : Int) - bzDecodeTableBits) =
      ((11 + (M - 11) - L : Nat) : Int) := by
    rw [bzDecodeTableBits]
    omega
  have hidx : (off : Int) + (suffix : Int) * 2 ^ (11 + (M - 11) - L) =
      ((off + suffix * 2 ^ (11 + (M - 11) - L) : Nat) : Int) := by
    push_cast
    rfl
  unfold fillOverflow at h
  dsimp only at h
  rw [hmk, hextra, hoff, hpad, if_neg (by omega), Int.toNat_natCast, hidx] at h
  split at h
  · cases h
  · cases h
    exact ⟨code_next hL hl hc, used, hu, hu512,
      hok.fillOverflow hL h11 (by omega) hs hpfx hm hcode hsuf⟩

/-- **One symbol keeps the tables sound**, and gets past the abandon tests only if its code
    fits in its length. -/
theorem fastStep_inv (hl : Lengths n length len) (hx : Extremes n len m M)
    (hp : PermUpto n len perm n) {q : Nat} (hq : q < n) {s s' : FastState}
    (hi : FastInv n len perm (M - 11) q s) (h : fastStep length perm M q s = .ok s') :
    FastInv n len perm (M - 11) (q + 1) s' ∧ ∃ L, At len n q L ∧ codeOf len n q L < 2 ^ L := by
  obtain ⟨sym, hsym, hps, hlen, hL⟩ := hp.sym hl hq
  have hM20 := hx.le_twenty hl
  have hM := hx.upper sym hsym
  have h1 := hl.one_le sym hsym
  have hnn := hp.nonneg hq
  generalize len sym = L at *
  rw [fastStep] at h
  dsimp only at h
  obtain ⟨t, ht⟩ : ∃ t, t = raiseLen L s := ⟨_, rfl⟩
  have hraise := raiseLen_spec hL hi.code
  have htc : t.codeVal = codeOf len n q L := by rw [ht, hraise]
  have htl : t.curLen = (L : Int) := by rw [ht, hraise]
  have hsl : ∃ used : Nat, t.ovfUsed = used ∧ used ≤ 512 ∧
      SlotsOk n len perm (M - 11) q used t.tbl t.ovf := by
    rw [ht, hraise]
    exact hi.slots
  rw [hlen, ← ht] at h
  split at h
  · rename_i h11
    obtain ⟨hinv, hlt⟩ := fillPrimary_spec hL h1 (by rw [bzDecodeTableBits] at h11; omega) hnn htc
      htl hsl h
    exact ⟨hinv, L, hL, hlt⟩
  · rename_i h11
    have h11 : 11 < L := by
      rw [bzDecodeTableBits] at h11
      omega
    have hex : ((L : Int) - bzDecodeTableBits).toNat = L - 11 := by
      rw [bzDecodeTableBits]
      omega
    have hpfx : ((codeOf len n q L : Nat) : Int) / 2 ^ (L - 11) =
        ((codeOf len n q L / 2 ^ (L - 11) : Nat) : Int) := by
      push_cast
      rfl
    have hsuf : ((codeOf len n q L : Nat) : Int) % 2 ^ (L - 11) =
        ((codeOf len n q L % 2 ^ (L - 11) : Nat) : Int) := by
      push_cast
      rfl
    rw [hex, htc, hpfx, hsuf] at h
    split at h
    · cases h
    · rename_i hlt
      have hlt : codeOf len n q L / 2 ^ (L - 11) < 2048 := by
        have e : (2 : Int) ^ bzDecodeTableBits = 2048 := by decide
        rw [e] at hlt
        omega
      have hfits : codeOf len n q L < 2 ^ L := by
        rw [Nat.div_lt_iff_lt_mul (Nat.two_pow_pos _)] at hlt
        have e : 2048 * 2 ^ (L - 11) = 2 ^ L := by
          rw [show 2048 = 2 ^ 11 from rfl, ← Nat.pow_add]
          congr 1
          omega
        omega
      refine ⟨?_, L, hL, hfits⟩
      split at h
      · -- the overflow area is full
        cases h
        obtain ⟨used, hu, hu512, hok⟩ := hsl
        exact ⟨code_next hL htl htc, used, hu, hu512, hok.mono (Nat.le_succ q)⟩
      · rename_i s₁ hslot
        obtain ⟨hc, hcl, used, off, hu, hu512, hok, hmk, _⟩ :=
          overflowSlot_spec hL h11 hM hlt rfl hsl hslot
        exact fillOverflow_spec hL h11 hM hM20 hnn hlt (hc.trans htc) (hcl.trans htl)
          (by rw [Nat.mul_comm]; exact (Nat.div_add_mod _ _).symm)
          (Nat.mod_lt _ (Nat.two_pow_pos _)) hu hu512 hok hmk h

/-- The construction, symbol by symbol. -/
theorem fastLoop_inv (hl : Lengths n length len) (hx : Extremes n len m M)
    (hp : PermUpto n len perm n) {s₀ : FastState} (h0 : FastInv n len perm (M - 11) 0 s₀) :
    ∀ {q : Nat}, q ≤ n → ∀ {s : FastState}, fastLoop length perm M q s₀ = .ok s →
      FastInv n len perm (M - 11) q s ∧
      (0 < q → ∃ L, At len n (q - 1) L ∧ codeOf len n (q - 1) L < 2 ^ L) := by
  intro q
  induction q with
  | zero =>
    intro _ s h
    cases h
    exact ⟨h0, fun h => absurd h (Nat.lt_irrefl 0)⟩
  | succ q ih =>
    intro hq s h
    rw [fastLoop] at h
    cases he : fastLoop length perm M q s₀ with
    | error s₁ =>
      rw [he] at h
      cases h
    | ok s₁ =>
      rw [he] at h
      obtain ⟨hinv, hfit⟩ := fastStep_inv hl hx hp hq (ih (by omega) he).1 h
      exact ⟨hinv, fun _ => hfit⟩

/-! ## 4. The whole table -/

theorem slotsOk_of_zero {perm tbl ovf : Int → Int} (me q used : Nat)
    (h0 : ∀ v : Nat, v < 2048 → tbl v = 0) : SlotsOk n len perm me q used tbl ovf where
  slot v hv := Or.inl (h0 v hv)
  sub v off hv hm := by
    have hneg := marker_neg me off
    have := h0 v hv
    omega
  apart v _ off _ hv _ _ hm := by
    have hneg := marker_neg me off
    have := h0 v hv
    omega

theorem cleared (tbl : Cells Int) {v : Nat} (hv : v < 2048) :
    (tbl.fill 0 (2 ^ bzDecodeTableBits) 0) v = 0 := by
  have e : (2 : Nat) ^ bzDecodeTableBits = 2048 := rfl
  rw [Cells.get_fill, e, if_pos (by omega)]

theorem fastInv_start (hx : Extremes n len m M) (perm : Int → Int) (tbl ovf : Cells Int) :
    FastInv n len perm (M - 11) 0
      ⟨tbl.fill 0 (2 ^ bzDecodeTableBits) 0, ovf, 0, m, 0⟩ := by
  have h0 : countLt len m n = 0 := countLt_eq_zero hx.lower
  have hf : firstCode len n m = 0 := firstCode_eq_zero hx.lower
  refine ⟨⟨m, rfl, by omega, Nat.zero_le _, ?_⟩, 0, rfl, by omega, ?_⟩
  · rw [codeOf, hf, h0]
    rfl
  · exact slotsOk_of_zero _ _ _ fun v hv => cleared tbl hv

/-- **What both paths find in the tables of a group** for an alphabet of `n` symbols. -/
structure GroupOk (n : Nat) (g : HuffTables) : Prop where
  exists_code : ∃ (length : Int → Int) (len : Nat → Nat) (m M used : Nat),
    Lengths n length len ∧ Extremes n len m M ∧ Tables n len m M g ∧
      SlotsOk n len g.perm (M - 11) n used g.decodeFast g.decodeOverflow

/-- **The tables built from any lengths are sound**, abandoned or not. -/
theorem buildTables_sound (hl : Lengths n length len) (g : HuffTables) :
    GroupOk n (buildTables length n g) := by
  obtain ⟨m, M, he, hx, ht⟩ := buildTables_tables hl g
  obtain ⟨g₁, hg₁⟩ : ∃ g₁, g₁ =
      { hbCreateDecodeTables length m M n g with minLen := (m : Int) } := ⟨_, rfl⟩
  have hb : buildTables length n g = fastTable length m M n g₁ := by
    rw [buildTables, he, hg₁]
  rw [hb] at ht ⊢
  obtain ⟨-, -, -, e4⟩ := fastTable_slow g₁ m M length n
  have hp : PermUpto n len g₁.perm n := by
    rw [← e4]
    exact ht.perm
  cases hloop : fastLoop length g₁.perm M n
      ⟨g₁.decodeFast.fill 0 (2 ^ bzDecodeTableBits) 0, g₁.decodeOverflow, 0, m, 0⟩ with
  | ok s =>
    obtain ⟨hinv, -⟩ := fastLoop_inv hl hx hp (fastInv_start hx g₁.perm _ _) (Nat.le_refl n) hloop
    obtain ⟨used, -, -, hok⟩ := hinv.slots
    refine ⟨length, len, m, M, used, hl, hx, ht, ?_⟩
    rw [e4]
    rw [fastTable, hloop]
    exact hok
  | error s =>
    refine ⟨length, len, m, M, 0, hl, hx, ht, ?_⟩
    rw [fastTable, hloop]
    exact slotsOk_of_zero _ _ _ fun v hv => cleared s.tbl hv

/-! ## 5. The lookup -/

/-- A length with a code is between the extremes. -/
theorem code_between {q L : Nat} (hx : Extremes n len m M) (h : At len n q L) : m ≤ L ∧ L ≤ M := by
  have hne : countEq len L n ≠ 0 := by
    have h1 := h.1
    have h2 := h.2
    rw [countLt_succ] at h2
    omega
  constructor
  · by_contra hlt
    exact hne (countEq_eq_zero fun j hj e => by have := hx.lower j hj; omega)
  · by_contra hlt
    exact hne (countEq_eq_zero fun j hj e => by have := hx.upper j hj; omega)

/-- `GET_MTF_VAL` goes on past every length shorter than that of the code it reads. -/
theorem mtfVal_more {g : HuffTables} (ht : Tables n len m M g) (hM : M ≤ 20) {q z L : Nat}
    (hz : m ≤ z) (hzL : z < L) (hLM : L ≤ M) :
    mtfVal g z ((codeOf len n q L / 2 ^ (L - z) : Nat) : Int) = .more := by
  have hpre := @codeOf_before len n q z L hzL
  rw [mtfVal, if_neg (by omega), ht.limit z hz (by omega), if_neg (by omega)]

/-- ... and stops at its length, with its symbol. -/
theorem mtfVal_symbol {g : HuffTables} (hl : Lengths n length len) (ht : Tables n len m M g)
    (hM : M ≤ 20) {q L : Nat} (hq : At len n q L) (hqn : q < n) (hmL : m ≤ L) (hLM : L ≤ M) :
    mtfVal g L ((codeOf len n q L : Nat) : Int) = .symbol (g.perm q) := by
  have hlt := codeOf_lt hq
  have hle := hq.1
  have hidx : ((codeOf len n q L : Nat) : Int) - g.base L = q := by
    rw [ht.base L hmL hLM, codeOf]
    omega
  have h258 := hl.small
  rw [mtfVal, if_neg (by omega), ht.limit L hmL hLM, if_pos (by omega), hidx, bzMaxAlphaSize,
    if_neg (by omega)]

/-- **`GET_MTF_VAL` on bits that start with a code reads that code.** -/
theorem getMtfVal_of_code {g : HuffTables} (hl : Lengths n length len) (hx : Extremes n len m M)
    (ht : Tables n len m M g) {b : BitBuf} {q L : Nat} (hq : At len n q L) (hqn : q < n)
    (hL : L ≤ b.bsLive) (hpeek : codeOf len n q L = b.peek L) :
    getMtfVal g b = some (some (g.perm q), b.skip L) := by
  obtain ⟨hmL, hLM⟩ := code_between hx hq
  have hM := hx.le_twenty hl
  have key : ∀ d z fuel, z + d = L → m ≤ z → d < fuel →
      getMtfLoop g fuel z (b.peek z : Nat) (b.skip z) = some (some (g.perm q), b.skip L) := by
    intro d
    induction d with
    | zero =>
      intro z fuel hz hmz hf
      obtain ⟨fuel, rfl⟩ := Nat.exists_eq_succ_of_ne_zero (Nat.ne_of_gt hf)
      obtain rfl : z = L := hz
      rw [getMtfLoop, ← hpeek, mtfVal_symbol hl ht hM hq hqn hmL hLM]
    | succ d ih =>
      intro z fuel hz hmz hf
      obtain ⟨fuel, rfl⟩ := Nat.exists_eq_succ_of_ne_zero (Nat.ne_of_gt (Nat.zero_lt_of_lt hf))
      have hdiv : b.peek z = codeOf len n q L / 2 ^ (L - z) := by
        rw [hpeek, b.peek_div (by omega) hL (by omega)]
      have hadd := b.peek_add (z := z) (n := 1) (by omega) (by omega)
      have hnext : ((b.peek z : Nat) : Int) * 2 + ((b.skip z).peek 1 : Nat) =
          ((b.peek (z + 1) : Nat) : Int) := by
        rw [hadd, Nat.pow_one]
        push_cast
        rfl
      rw [getMtfLoop, hdiv, mtfVal_more ht hM hmz (by omega) hLM, ← hdiv]
      dsimp only
      rw [BitBuf.getBits, if_pos (by rw [BitBuf.skip_bsLive]; omega), Option.bind_some, hnext,
        BitBuf.skip_skip]
      exact ih (z + 1) fuel (by omega) (by omega) (by omega)
  have hmin : g.minLen.toNat = m := by
    rw [ht.minLen]
    rfl
  rw [getMtfVal, hmin, BitBuf.getBits, if_pos (by omega), Option.bind_some, ht.minLen]
  exact key (L - m) m 21 (by omega) (Nat.le_refl m) (by omega)

theorem packEntry_sym {L : Nat} {sym : Int} (h0 : 0 ≤ sym) (h : sym < 65536) :
    packEntry L sym % 65536 = sym ∧ (packEntry L sym / 65536).toNat = L := by
  unfold packEntry
  omega

/-- An entry, unpacked. -/
theorem Entry.unpack {g : HuffTables} (hl : Lengths n length len) (hx : Extremes n len m M)
    (ht : Tables n len m M g) {b : BitBuf} {w : Nat} {e : Int} (hw : w ≤ b.bsLive) (h64 : w ≤ 64)
    (h : Entry n len g.perm n w (b.peek w) e) :
    getMtfVal g b = some (some (e % 65536), b.skip (e / 65536).toNat) ∧
      (e / 65536).toNat ≤ b.bsLive := by
  obtain ⟨p, L, hp, hL, hLw, -, rfl, hc⟩ := h
  obtain ⟨s, hs, hps, -⟩ := ht.perm p hp
  have h258 := hl.small
  obtain ⟨e1, e2⟩ := @packEntry_sym L (g.perm p) (by omega) (by omega)
  rw [b.peek_div hLw hw h64] at hc
  rw [e1, e2]
  exact ⟨getMtfVal_of_code hl hx ht hL hp (by omega) hc, by omega⟩

end Group

/-- **A hit in the table is what `GET_MTF_VAL` reads**, symbol and bits. -/
theorem tableLookup_getMtfVal {n : Nat} {g : HuffTables} (hg : GroupOk n g) {b : BitBuf}
    (h11 : bzDecodeTableBits ≤ b.bsLive) {sym : Int} {k : Nat}
    (h : tableLookup g b = some (sym, k)) :
    getMtfVal g b = some (some sym, b.skip k) ∧ k ≤ b.bsLive := by
  obtain ⟨length, len, m, M, used, hl, hx, ht, hok⟩ := hg.exists_code
  have hM := hx.le_twenty hl
  have hv : b.peek 11 < 2048 := b.peek_lt (by omega)
  rw [tableLookup] at h
  dsimp only at h
  split at h
  · rename_i hpos
    obtain ⟨rfl, rfl⟩ := Prod.mk.inj (Option.some.inj h)
    rcases hok.slot _ hv with h0 | he | ⟨off, hm, -⟩
    · rw [bzDecodeTableBits] at hpos
      omega
    · exact he.unpack hl hx ht (show 11 ≤ b.bsLive from h11) (by omega)
    · have hneg := marker_neg (M - 11) off
      rw [bzDecodeTableBits] at hpos
      omega
  · split at h
    · rename_i hneg
      rcases hok.slot _ hv with h0 | he | ⟨off, hm, -⟩
      · rw [bzDecodeTableBits] at hneg
        omega
      · have hpos := he.pos
        rw [bzDecodeTableBits] at hneg
        omega
      · have hmk : -(g.decodeFast (b.peek bzDecodeTableBits) + 1) =
            (off : Int) * 16 + ((M - 11 : Nat) : Int) := by
          rw [bzDecodeTableBits, hm, marker]
          omega
        have hextra : (((off : Int) * 16 + ((M - 11 : Nat) : Int)) % 16).toNat = M - 11 := by
          omega
        have hoff : ((off : Int) * 16 + ((M - 11 : Nat) : Int)) / 16 = (off : Int) := by
          omega
        rw [hmk, hextra, hoff] at h
        split at h
        · rename_i htot
          rw [bzDecodeTableBits] at htot
          have hx2 : b.field (b.bsLive - (bzDecodeTableBits + (M - 11))) (M - 11) =
              (b.skip 11).peek (M - 11) := by
            rw [BitBuf.peek, BitBuf.skip_bsLive, bzDecodeTableBits, Nat.sub_sub]
            rfl
          have hlt := (b.skip 11).peek_lt (n := M - 11) (by omega)
          have hadd := b.peek_add (z := 11) (n := M - 11) htot (by omega)
          have hcast : (off : Int) + ((b.skip 11).peek (M - 11) : Nat) =
              ((off + (b.skip 11).peek (M - 11) : Nat) : Int) := rfl
          rw [hx2, hcast] at h
          split at h
          · rename_i hpos
            obtain ⟨rfl, rfl⟩ := Prod.mk.inj (Option.some.inj h)
            rcases hok.sub _ off hv hm _ hlt with h0 | he
            · omega
            · rw [← hadd] at he
              exact he.unpack hl hx ht htot (by omega)
          · cases h
        · cases h
    · cases h

/-! ## 6. The bits that are no code -/

theorem GroupOk.minLen_range {n : Nat} {g : HuffTables} (hg : GroupOk n g) :
    1 ≤ g.minLen ∧ g.minLen ≤ 20 := by
  obtain ⟨length, len, m, M, used, hl, hx, ht, -⟩ := hg.exists_code
  have h1 := hx.one_le hl
  have h2 := hx.le
  have h3 := hx.le_twenty hl
  rw [ht.minLen]
  omega

/-- What `zvec` satisfies when the loop of `GET_MTF_VAL` looks at it: read at once, or one bit
    longer than a value past the limit. -/
def ValOk (g : HuffTables) (zn zvec : Int) : Prop :=
  zn ≤ 21 ∧ (zn = g.minLen ∧ 0 ≤ zvec ∨ g.minLen < zn ∧ 2 * (g.limit (zn - 1) + 1) ≤ zvec)

/-- **A value within the limit is the index of a symbol**: `perm` is read among the symbols. -/
theorem mtfVal_index {n : Nat} {g : HuffTables} (hg : GroupOk n g) {zn zvec : Int}
    (h : ValOk g zn zvec) (h20 : zn ≤ 20) (hle : zvec ≤ g.limit zn) :
    0 ≤ zvec - g.base zn ∧ zvec - g.base zn < n ∧
      ∃ s : Nat, s < n ∧ g.perm (zvec - g.base zn) = s := by
  obtain ⟨length, len, m, M, used, hl, hx, ht, -⟩ := hg.exists_code
  have h1 := hx.one_le hl
  have hmM := hx.le
  have hM := hx.le_twenty hl
  obtain ⟨h21, hval⟩ := h
  rw [ht.minLen] at hval
  obtain ⟨z, hz⟩ : ∃ z : Nat, zn = z := ⟨zn.toNat, by omega⟩
  subst hz
  have hmz : m ≤ z := by omega
  by_cases hzM : z ≤ M
  · -- an index among the codes of its length
    have hlim := ht.limit z hmz hzM
    have hbase := ht.base z hmz hzM
    have hfirst : (firstCode len n z : Int) ≤ zvec := by
      rcases hval with ⟨he, h0⟩ | ⟨hlt, h2⟩
      · have e : z = m := by omega
        have hf : firstCode len n z = 0 := by
          rw [e]
          exact firstCode_eq_zero hx.lower
        omega
      · obtain ⟨y, rfl⟩ : ∃ y, z = y + 1 := ⟨z - 1, by omega⟩
        have hy : ((y + 1 : Nat) : Int) - 1 = (y : Int) := by omega
        have hlim' := ht.limit y (by omega) (by omega)
        rw [hy, hlim'] at h2
        rw [firstCode]
        omega
    have hcount := @countLt_succ len z n
    have hn : countLt len (z + 1) n ≤ n := countLt_le _ _
    have hidx : zvec - g.base z = ((zvec.toNat - firstCode len n z + countLt len z n : Nat) : Int) := by
      omega
    have hp : zvec.toNat - firstCode len n z + countLt len z n < n := by omega
    obtain ⟨s, hs, hps, -⟩ := ht.perm _ hp
    rw [hidx]
    exact ⟨Int.natCast_nonneg _, by omega, s, hs, hps⟩
  · -- past the longest code the limit is zero and the value is not
    exfalso
    have hlim := ht.limit_zero z (by omega) (by omega)
    have hpos : 1 ≤ zvec := by
      rcases hval with ⟨he, h0⟩ | ⟨hlt, h2⟩
      · omega
      · obtain ⟨y, rfl⟩ : ∃ y, z = y + 1 := ⟨z - 1, by omega⟩
        have hy : ((y + 1 : Nat) : Int) - 1 = (y : Int) := by omega
        rw [hy] at h2
        by_cases hyM : y ≤ M
        · have hlim' := ht.limit y (by omega) hyM
          have e : y = M := by omega
          obtain ⟨j, hj, hjM⟩ := hx.upper_mem
          have hc : 1 ≤ countEq len y n := by
            have h1 : countEq len y (j + 1) ≤ countEq len y n := countEq_le_of_le _ hj
            have h2 : countEq len y (j + 1) = countEq len y j + 1 := by
              rw [countEq, if_pos (by omega)]
            omega
          omega
        · have hlim' := ht.limit_zero y (by omega) (by omega)
          omega
    omega

/-- **The loop of `GET_MTF_VAL` never leaves the tables**: it reads `perm` only where a symbol of
    the alphabet stands, and fails only for want of a code of up to 20 bits. -/
theorem mtfVal_range {n : Nat} {g : HuffTables} (hg : GroupOk n g) {zn zvec : Int}
    (h : ValOk g zn zvec) :
    match mtfVal g zn zvec with
    | .error => zn = 21
    | .symbol sym => zn ≤ 20 ∧ 0 ≤ sym ∧ sym < n
    | .more => g.minLen < zn + 1 ∧ zn + 1 ≤ 21 ∧ g.limit zn < zvec := by
  have h258 : n ≤ 258 := by
    obtain ⟨length, len, m, M, used, hl, -⟩ := hg.exists_code
    exact hl.small
  by_cases h20 : zn > 20
  · have h21 := h.1
    rw [mtfVal, if_pos h20]
    dsimp only
    omega
  · rw [mtfVal, if_neg h20]
    by_cases hle : zvec ≤ g.limit zn
    · obtain ⟨h0, hlt, s, hs, hps⟩ := mtfVal_index hg h (by omega) hle
      rw [if_pos hle, bzMaxAlphaSize, if_neg (by omega)]
      dsimp only
      rw [hps]
      omega
    · have hval := h.2
      rw [if_neg hle]
      dsimp only
      omega

theorem getMtfLoop_sym {n : Nat} {g : HuffTables} (hg : GroupOk n g) {sym : Int} {b' : BitBuf} :
    ∀ (fuel : Nat) (zn zvec : Int) (b : BitBuf), ValOk g zn zvec →
      getMtfLoop g fuel zn zvec b = some (some sym, b') → 0 ≤ sym ∧ sym < n := by
  intro fuel
  induction fuel with
  | zero => intro zn zvec b _ h; cases h
  | succ fuel ih =>
    intro zn zvec b hv h
    have hr := mtfVal_range hg hv
    unfold getMtfLoop at h
    cases hm : mtfVal g zn zvec with
    | error =>
      rw [hm] at h
      cases h
    | symbol sym' =>
      rw [hm] at h hr
      cases h
      exact hr.2
    | more =>
      rw [hm] at h hr
      dsimp only at h hr
      cases hb : b.getBits 1 with
      | none =>
        rw [hb] at h
        cases h
      | some r =>
        rw [hb, Option.bind_some] at h
        have e : zn + 1 - 1 = zn := by omega
        exact ih _ _ _ ⟨hr.2.1, Or.inr ⟨hr.1, by rw [e]; omega⟩⟩ h

/-- A symbol read is a symbol of the alphabet. -/
theorem getMtfVal_sym {n : Nat} {g : HuffTables} (hg : GroupOk n g) {sym : Int} {b b' : BitBuf}
    (h : getMtfVal g b = some (some sym, b')) : 0 ≤ sym ∧ sym < n := by
  unfold getMtfVal at h
  cases hb : b.getBits g.minLen.toNat with
  | none =>
    rw [hb] at h
    cases h
  | some r =>
    rw [hb, Option.bind_some] at h
    have hml := hg.minLen_range
    exact getMtfLoop_sym hg _ _ _ _
      ⟨Int.le_trans hml.2 (by decide), Or.inl ⟨rfl, Int.natCast_nonneg _⟩⟩ h

/-- **An over-subscribed code leaves the table empty.** -/
theorem overSubscribed_abandons {n : Nat} {length : Int → Int} {len : Nat → Nat}
    (hl : Lengths n length len) (g : HuffTables)
    (h : 2 ^ 20 < ∑ j ∈ Finset.range n, 2 ^ (20 - len j)) {v : Nat} (hv : v < 2048) :
    (buildTables length n g).decodeFast v = 0 := by
  obtain ⟨m, M, he, hx, ht⟩ := buildTables_tables hl g
  obtain ⟨g₁, hg₁⟩ : ∃ g₁, g₁ =
      { hbCreateDecodeTables length m M n g with minLen := (m : Int) } := ⟨_, rfl⟩
  have hb : buildTables length n g = fastTable length m M n g₁ := by
    rw [buildTables, he, hg₁]
  rw [hb] at ht ⊢
  obtain ⟨-, -, -, e4⟩ := fastTable_slow g₁ m M length n
  have hp : PermUpto n len g₁.perm n := by
    rw [← e4]
    exact ht.perm
  cases hloop : fastLoop length g₁.perm M n
      ⟨g₁.decodeFast.fill 0 (2 ^ bzDecodeTableBits) 0, g₁.decodeOverflow, 0, m, 0⟩ with
  | error s =>
    rw [fastTable, hloop]
    exact cleared s.tbl hv
  | ok s =>
    -- the last code would fit in its length, and the Kraft sum with it
    exfalso
    obtain ⟨-, hlast⟩ := fastLoop_inv hl hx hp (fastInv_start hx g₁.perm _ _) (Nat.le_refl n) hloop
    obtain ⟨L, hL, hfit⟩ := hlast hl.pos
    obtain ⟨j, hj, hjM⟩ := hx.upper_mem
    have hrank := @rank_lt len n _ hj
    have hML : M ≤ L := by
      rw [← hjM]
      exact (rank_at hj).le_of_le hL (by omega)
    have hL20 : L ≤ 20 := Nat.le_trans (code_between hx hL).2 (hx.le_twenty hl)
    have hkraft := @kraft_eq len n L
      fun j hj => Nat.le_trans (hx.upper j hj) hML
    have hsum : firstCode len n L + countEq len L n ≤ 2 ^ L := by
      have h1 := hL.1
      have h2 := hL.2
      have h3 : countLt len (L + 1) n = n := countLt_eq_self fun j hj => by
        have := hx.upper j hj
        omega
      have h4 := @countLt_succ len L n
      rw [codeOf] at hfit
      omega
    have hscale : ∑ j ∈ Finset.range n, 2 ^ (20 - len j) =
        (∑ j ∈ Finset.range n, 2 ^ (L - len j)) * 2 ^ (20 - L) := by
      rw [Finset.sum_mul]
      refine Finset.sum_congr rfl fun j hj => ?_
      have hle := hx.upper j (Finset.mem_range.mp hj)
      rw [← Nat.pow_add]
      congr 1
      omega
    have hle : (∑ j ∈ Finset.range n, 2 ^ (L - len j)) * 2 ^ (20 - L) ≤ 2 ^ L * 2 ^ (20 - L) := by
      rw [← hkraft]
      exact Nat.mul_le_mul_right _ hsum
    rw [← hscale, ← Nat.pow_add] at hle
    have e : L + (20 - L) = 20 := by omega
    rw [e] at hle
    omega

/-! ## 7. Where the construction writes -/

/-- The tables a construction step leaves, abandoned or not. -/
def reached : Except FastState FastState → FastState
  | .ok s => s
  | .error s => s

/-- Nothing is written outside the 2048 entries of the table and the 512 of the overflow area. -/
def WritesInside (s s' : FastState) : Prop :=
  (∀ i : Int, ¬(0 ≤ i ∧ i < 2048) → s'.tbl i = s.tbl i) ∧
    ∀ i : Int, ¬(0 ≤ i ∧ i < 512) → s'.ovf i = s.ovf i

theorem WritesInside.trans {s s' s'' : FastState} (h : WritesInside s s') (h' : WritesInside s' s'') :
    WritesInside s s'' :=
  ⟨fun i hi => (h'.1 i hi).trans (h.1 i hi), fun i hi => (h'.2 i hi).trans (h.2 i hi)⟩

theorem writesInside_of_eq {s s' : FastState} (htbl : s'.tbl = s.tbl) (hovf : s'.ovf = s.ovf) :
    WritesInside s s' :=
  ⟨fun _ _ => by rw [htbl], fun _ _ => by rw [hovf]⟩

theorem reached_map_next (r : Except FastState FastState) :
    (reached (r.map FastState.next)).tbl = (reached r).tbl ∧
      (reached (r.map FastState.next)).ovf = (reached r).ovf := by
  cases r <;> exact ⟨rfl, rfl⟩

theorem fill_outside (a : Cells Int) {at' m : Int} {k : Nat} (v : Int) (h0 : 0 ≤ at')
    (hm : at' + k ≤ m) {i : Int} (hi : ¬(0 ≤ i ∧ i < m)) : (a.fill at' k v) i = a i := by
  rw [Cells.get_fill, if_neg (by omega)]

theorem fillPrimary_inside (symLen sym : Int) (s : FastState) :
    WritesInside s (reached (fillPrimary symLen sym s)) := by
  unfold fillPrimary
  dsimp only
  split
  · exact writesInside_of_eq rfl rfl
  · rename_i hfit
    have e : (2 : Int) ^ bzDecodeTableBits = 2048 := by decide
    rw [e] at hfit
    exact ⟨fun i hi => fill_outside _ _ (by omega) (by omega) hi, fun _ _ => rfl⟩

theorem overflowSlot_inside {maxLen : Int} {pfx : Nat} {s s' : FastState} (hpfx : pfx < 2048)
    (hused : 0 ≤ s.ovfUsed) (h : overflowSlot maxLen pfx s = some s') : WritesInside s s' := by
  unfold overflowSlot at h
  dsimp only at h
  generalize (2 : Nat) ^ (if maxLen - bzDecodeTableBits ≤ 0 then 1 else
    maxLen - bzDecodeTableBits).toNat = subSize at h
  split at h
  · split at h
    · cases h
    · rename_i hfit
      cases h
      rw [overflowSize] at hfit
      refine ⟨fun i hi => ?_, fun i hi => fill_outside _ _ hused (by omega) hi⟩
      dsimp only
      rw [Cells.get_set_of_ne _ (by omega)]
  · cases h
    exact writesInside_of_eq rfl rfl

theorem fillOverflow_inside {symLen sym extra : Int} {pfx suffix off me : Nat} {s : FastState}
    (hm : s.tbl pfx = marker me off) :
    WritesInside s (reached (fillOverflow symLen sym pfx suffix extra s)) := by
  unfold fillOverflow
  rw [hm]
  dsimp only
  split
  · exact writesInside_of_eq rfl rfl
  · split
    · exact writesInside_of_eq rfl rfl
    · rename_i hfit
      rw [overflowSize] at hfit
      have hoff : 0 ≤ -(marker me off + 1) / 16 := by
        unfold marker
        omega
      refine ⟨fun _ _ => rfl, fun i hi => fill_outside _ _ ?_ (by omega) hi⟩
      exact Int.add_nonneg hoff
        (Int.mul_nonneg (Int.natCast_nonneg _) (Int.pow_nonneg (by decide)))

section Group

variable {n m M : Nat} {length : Int → Int} {len : Nat → Nat} {perm : Cells Int}

theorem raiseLen_tables (symLen : Int) (s : FastState) :
    (raiseLen symLen s).tbl = s.tbl ∧ (raiseLen symLen s).ovf = s.ovf :=
  forUpto_inv (fun _ (t : FastState) => t.tbl = s.tbl ∧ t.ovf = s.ovf) ⟨rfl, rfl⟩ _
    fun _ _ _ h => h

/-- **One symbol** writes inside both tables. -/
theorem fastStep_inside (hl : Lengths n length len) (hx : Extremes n len m M)
    (hp : PermUpto n len perm n) {q : Nat} (hq : q < n) {s : FastState}
    (hi : FastInv n len perm (M - 11) q s) :
    WritesInside s (reached (fastStep length perm M q s)) := by
  obtain ⟨sym, hsym, hps, hlen, hL⟩ := hp.sym hl hq
  have hM := hx.upper sym hsym
  generalize len sym = L at *
  obtain ⟨t, ht⟩ : ∃ t, t = raiseLen L s := ⟨_, rfl⟩
  have hraise := raiseLen_spec hL hi.code
  obtain ⟨htbl, hovf⟩ := raiseLen_tables L s
  have hst : WritesInside s t := by
    rw [ht]
    exact writesInside_of_eq htbl hovf
  have htc : t.codeVal = codeOf len n q L := by rw [ht, hraise]
  have hsl : ∃ used : Nat, t.ovfUsed = used ∧ used ≤ 512 ∧
      SlotsOk n len perm (M - 11) q used t.tbl t.ovf := by
    rw [ht, hraise]
    exact hi.slots
  rw [fastStep]
  dsimp only
  rw [hlen, ← ht]
  split
  · obtain ⟨e1, e2⟩ := reached_map_next (fillPrimary L (perm q) t)
    exact (hst.trans (fillPrimary_inside _ _ t)).trans (writesInside_of_eq e1 e2)
  · rename_i h11
    have h11 : 11 < L := by
      rw [bzDecodeTableBits] at h11
      omega
    have hex : ((L : Int) - bzDecodeTableBits).toNat = L - 11 := by
      rw [bzDecodeTableBits]
      omega
    have hpfx : ((codeOf len n q L : Nat) : Int) / 2 ^ (L - 11) =
        ((codeOf len n q L / 2 ^ (L - 11) : Nat) : Int) := by
      push_cast
      rfl
    have hsuf : ((codeOf len n q L : Nat) : Int) % 2 ^ (L - 11) =
        ((codeOf len n q L % 2 ^ (L - 11) : Nat) : Int) := by
      push_cast
      rfl
    rw [hex, htc, hpfx, hsuf]
    split
    · exact hst
    · rename_i hlt
      have hlt : codeOf len n q L / 2 ^ (L - 11) < 2048 := by
        have e : (2 : Int) ^ bzDecodeTableBits = 2048 := by decide
        rw [e] at hlt
        omega
      split
      · exact hst
      · rename_i s₁ hslot
        obtain ⟨-, -, used, off, -, -, -, hmk, -⟩ := overflowSlot_spec hL h11 hM hlt rfl hsl hslot
        obtain ⟨u, hu, -, -⟩ := hsl
        have h1 := overflowSlot_inside hlt (by omega) hslot
        obtain ⟨e1, e2⟩ := reached_map_next (fillOverflow L (perm q)
          (codeOf len n q L / 2 ^ (L - 11) : Nat) (codeOf len n q L % 2 ^ (L - 11) : Nat)
          ((L : Int) - bzDecodeTableBits) s₁)
        exact ((hst.trans h1).trans (fillOverflow_inside hmk)).trans (writesInside_of_eq e1 e2)

theorem fastLoop_inside (hl : Lengths n length len) (hx : Extremes n len m M)
    (hp : PermUpto n len perm n) {s₀ : FastState} (h0 : FastInv n len perm (M - 11) 0 s₀) :
    ∀ {q : Nat}, q ≤ n → WritesInside s₀ (reached (fastLoop length perm M q s₀)) := by
  intro q
  induction q with
  | zero => exact fun _ => writesInside_of_eq rfl rfl
  | succ q ih =>
    intro hq
    have hfront := ih (by omega)
    rw [fastLoop]
    cases he : fastLoop length perm M q s₀ with
    | error s₁ =>
      rw [he] at hfront
      exact hfront
    | ok s₁ =>
      rw [he] at hfront
      exact hfront.trans
        (fastStep_inside hl hx hp hq (fastLoop_inv hl hx hp h0 (by omega) he).1)

/-- **What was in the tables of a group before has no part in the new ones**: the construction writes
    inside both levels of the table, and every cell of `perm` it may be asked for. -/
theorem buildTables_inside (hl : Lengths n length len) (g g' : HuffTables) :
    (∀ i : Int, ¬(0 ≤ i ∧ i < 2048) → (buildTables length n g).decodeFast i = g.decodeFast i) ∧
    (∀ i : Int, ¬(0 ≤ i ∧ i < 512) →
      (buildTables length n g).decodeOverflow i = g.decodeOverflow i) ∧
    ∀ q : Nat, q < n → (buildTables length n g).perm q = (buildTables length n g').perm q := by
  obtain ⟨m, M, he, hx, ht⟩ := buildTables_tables hl g
  obtain ⟨m', M', -, -, ht'⟩ := buildTables_tables hl g'
  have hperm : ∀ q : Nat, q < n →
      (buildTables length n g).perm q = (buildTables length n g').perm q := by
    intro q hq
    obtain ⟨s, hs, hps, hr⟩ := ht.perm q hq
    obtain ⟨s', hs', hps', hr'⟩ := ht'.perm q hq
    rw [hps, hps', rank_inj hs hs' (hr.trans hr'.symm)]
  obtain ⟨g₁, hg₁⟩ : ∃ g₁, g₁ =
      { hbCreateDecodeTables length m M n g with minLen := (m : Int) } := ⟨_, rfl⟩
  have hb : buildTables length n g = fastTable length m M n g₁ := by
    rw [buildTables, he, hg₁]
  rw [hb] at ht
  obtain ⟨-, -, -, e4⟩ := fastTable_slow g₁ m M length n
  have hp : PermUpto n len g₁.perm n := by
    rw [← e4]
    exact ht.perm
  obtain ⟨h1, h2⟩ := fastLoop_inside hl hx hp
    (fastInv_start hx g₁.perm g₁.decodeFast g₁.decodeOverflow) (Nat.le_refl n)
  have hfast : g₁.decodeFast = g.decodeFast := by rw [hg₁]; rfl
  have hovf : g₁.decodeOverflow = g.decodeOverflow := by rw [hg₁]; rfl
  have hclear : ∀ (tbl : Cells Int) (i : Int), ¬(0 ≤ i ∧ i < 2048) →
      (tbl.fill 0 (2 ^ bzDecodeTableBits) 0) i = tbl i := fun tbl i hi =>
    fill_outside tbl 0 (Int.le_refl 0) (by decide) hi
  refine ⟨fun i hi => ?_, fun i hi => ?_, hperm⟩
  · rw [hb, fastTable]
    have h := h1 i hi
    rw [show (⟨g₁.decodeFast.fill 0 (2 ^ bzDecodeTableBits) 0, g₁.decodeOverflow, 0, m, 0⟩ :
      FastState).tbl i = g.decodeFast i by rw [← hfast]; exact hclear _ i hi] at h
    cases hloop : fastLoop length g₁.perm M n
        ⟨g₁.decodeFast.fill 0 (2 ^ bzDecodeTableBits) 0, g₁.decodeOverflow, 0, m, 0⟩ with
    | ok s =>
      rw [hloop] at h
      exact h
    | error s =>
      rw [hloop] at h
      exact (hclear s.tbl i hi).trans h
  · rw [hb, fastTable]
    have h := h2 i hi
    rw [← hovf]
    cases hloop : fastLoop length g₁.perm M n
        ⟨g₁.decodeFast.fill 0 (2 ^ bzDecodeTableBits) 0, g₁.decodeOverflow, 0, m, 0⟩ with
    | ok s =>
      rw [hloop] at h
      exact h
    | error s =>
      rw [hloop] at h
      exact h

end Group

end Qbz2
