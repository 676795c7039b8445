/-
  File:      Qbz2/RoundTrip/Codes.lean
  Subject:   The codes of `BZ2_hbAssignCodes` are read by `GET_MTF_VAL`.

  * `lenBounds_lenRange` -- both sides find the same shortest and longest length;
  * `mtf_reads` -- the loop of `GET_MTF_VAL` reads a code, bit by bit; `mtf_rejects` -- on bits that
    start with no code it ends in `BZ_DATA_ERROR`;
  * `symbol_reads` -- a symbol is read from its code;
  * **`canonical_roundTrip`** -- both together, for the tables built from the lengths.
-/
import Qbz2.Compress.Assign
import Qbz2.Decompress.Abstract

namespace Qbz2

open Canonical Transducer Bits Loop

/-! ## 1. The lengths -/

/-- Both sides find the same shortest and longest length. -/
theorem lenBounds_lenRange (n : Nat) (length : Cells Nat) :
    lenRange (fun i => (length i : Nat)) n =
      (((lenBounds n length).1 : Int), ((lenBounds n length).2 : Int)) := by
  unfold lenRange lenBounds
  refine forUpto_rel (fun _ (a : Int × Int) (b : Nat × Nat) => a = ((b.1 : Int), (b.2 : Int))) ?_ n
    fun i a b _ h => ?_
  · rfl
  rw [h]
  dsimp only
  refine Prod.ext ?_ ?_
  · dsimp only
    split <;> split <;> omega
  · dsimp only
    split <;> split <;> omega

/-! ## 2. The loop of `GET_MTF_VAL` -/

section

variable {μ : Type} [MtfList μ] {n m M : Nat} {length : Int → Int} {len : Nat → Nat}
  {g : HuffTables} {c : Core μ}

/-- The prefixes of a code, a bit at a time. -/
theorem div_two_pow_succ (v d : Nat) :
    v / 2 ^ (d + 1) * 2 + (v.testBit d).toNat = v / 2 ^ d := by
  rw [Nat.toNat_testBit, Nat.pow_succ, ← Nat.div_div_eq_div_mul]
  omega

/-- **The loop of `GET_MTF_VAL` reads a code**, of which `L - d` bits have been read. -/
theorem mtf_reads (hl : Lengths n length len) (hx : Extremes n len m M) (ht : Tables n len m M g)
    {q L : Nat} (hq : At len n q L) (hqn : q < n) (hg : c.p.group = g) (ver : Version)
    (small : Bool) (site : MtfSite) (rest : List Bool) : ∀ d z : Nat, z + d = L → m ≤ z →
    Steps (bitDecoder ver small)
      (standing (c.absorb small (c.p.mtf ver site z ((codeOf len n q L / 2 ^ d : Nat) : Int))))
      (bitsOf d (codeOf len n q L) ++ rest) []
      (standing (c.absorb small (c.p.value ver site (g.perm q)))) rest := by
  obtain ⟨hmL, hLM⟩ := code_between hx hq
  have hM := hx.le_twenty hl
  intro d
  induction d with
  | zero =>
    intro z hz hmz
    obtain rfl : z = L := hz
    rw [Parse.mtf, hg, Nat.pow_zero, Nat.div_one, mtfVal_symbol hl ht hM hq hqn hmL hLM]
    exact .refl _ _
  | succ d ih =>
    intro z hz hmz
    have hd : L - z = d + 1 := by omega
    have hmore := @mtfVal_more n m M len g ht hM q z L hmz (by omega) hLM
    rw [hd] at hmore
    rw [Parse.mtf, hg, hmore]
    refine .read rfl (Nat.succ_le_succ (Nat.zero_le _)) ?_
    have hbit : bitsVal ((bitsOf (d + 1) (codeOf len n q L) ++ rest).take 1) =
        ((codeOf len n q L).testBit d).toNat := by
      show ((codeOf len n q L).testBit d).toNat * 2 ^ 0 + 0 = _
      rw [Nat.pow_zero, Nat.mul_one, Nat.add_zero]
    have hnext := ih (z + 1) (by omega) (by omega)
    rw [← div_two_pow_succ, ← hbit] at hnext
    push_cast at hnext
    exact hnext

/-- The bits read so far are past the codes of their length, if no code is a prefix of them. -/
theorem past_codes (ht : Tables n len m M g) {t : List Bool}
    (hno : ∀ s, s < n → ¬ bitsOf (len s) (codeOf len n (rank len n s) (len s)) <+: t) {z : Nat}
    (hz : z ≤ t.length) (hge : firstCode len n z ≤ bitsVal (t.take z)) :
    firstCode len n z + countEq len z n ≤ bitsVal (t.take z) := by
  by_contra hlt
  obtain ⟨q, hq⟩ : ∃ q, q = countLt len z n + (bitsVal (t.take z) - firstCode len n z) := ⟨_, rfl⟩
  have hat : At len n q z := by
    unfold At
    rw [countLt_succ]
    omega
  have hqn : q < n := Nat.lt_of_lt_of_le hat.2 (countLt_le _ _)
  obtain ⟨s, hs, -, hr⟩ := ht.perm q hqn
  have hsat := @rank_at len n s hs
  rw [hr] at hsat
  have hL : len s = z := Nat.le_antisymm (hsat.le_of_le hat (Nat.le_refl q))
    (hat.le_of_le hsat (Nat.le_refl q))
  refine hno s hs ?_
  have hcode : codeOf len n q z = bitsVal (t.take z) := by
    unfold codeOf
    omega
  have hlen : (t.take z).length = z := List.length_take_of_le hz
  have hbits := bitsOf_bitsVal (t.take z)
  rw [hlen] at hbits
  rw [hr, hL, hcode, hbits]
  exact List.take_prefix z t

/-- **On bits that start with no code `GET_MTF_VAL` ends in `BZ_DATA_ERROR`**, after 21 bits. -/
theorem mtf_rejects (hl : Lengths n length len) (hx : Extremes n len m M) (ht : Tables n len m M g)
    (hg : c.p.group = g) (ver : Version) (small : Bool) (site : MtfSite) {t : List Bool}
    (h21 : 21 ≤ t.length)
    (hno : ∀ s, s < n → ¬ bitsOf (len s) (codeOf len n (rank len n s) (len s)) <+: t) :
    ∀ d z : Nat, z + d = 21 → m ≤ z → (z ≤ M → firstCode len n z ≤ bitsVal (t.take z)) →
    (M < z → 1 ≤ bitsVal (t.take z)) →
    Steps (bitDecoder ver small)
      (standing (c.absorb small (c.p.mtf ver site z ((bitsVal (t.take z) : Nat) : Int))))
      (t.drop z) [] (standing (c.absorb small (c.p.fail .dataError))) (t.drop 21) := by
  have hM := hx.le_twenty hl
  intro d
  induction d with
  | zero =>
    intro z hz _ _ _
    obtain rfl : z = 21 := hz
    rw [Parse.mtf, mtfVal, if_pos (by decide)]
    exact .refl _ _
  | succ d ih =>
    intro z hz hmz hlow hhigh
    have hpast : z ≤ M → firstCode len n z + countEq len z n ≤ bitsVal (t.take z) :=
      fun hzM => past_codes ht hno (by omega) (hlow hzM)
    have hmore : mtfVal g z ((bitsVal (t.take z) : Nat) : Int) = .more := by
      rw [mtfVal, if_neg (by omega), if_neg]
      by_cases hzM : z ≤ M
      · have := hpast hzM
        rw [ht.limit z hmz hzM]
        omega
      · have := hhigh (by omega)
        rw [ht.limit_zero z (by omega) (by omega)]
        omega
    obtain ⟨b, rest, hdrop⟩ : ∃ b rest, t.drop z = b :: rest := by
      cases h : t.drop z with
      | nil =>
        have := List.drop_eq_nil_iff.mp h
        omega
      | cons b rest => exact ⟨b, rest, rfl⟩
    have htake : t.take (z + 1) = t.take z ++ [b] := by
      rw [List.take_add, hdrop]
      rfl
    have hval : bitsVal (t.take (z + 1)) = bitsVal (t.take z) * 2 + b.toNat := by
      rw [htake, bitsVal_append]
      show bitsVal (t.take z) * 2 ^ 1 + (b.toNat * 2 ^ 0 + 0) = _
      rw [Nat.pow_one, Nat.pow_zero, Nat.mul_one, Nat.add_zero]
    have hrest : t.drop (z + 1) = rest := by
      rw [← List.drop_drop, hdrop]
      rfl
    rw [Parse.mtf, hg, hmore]
    rw [hdrop]
    refine .read rfl (Nat.succ_le_succ (Nat.zero_le _)) ?_
    have hbit : bitsVal ((b :: rest).take 1) = b.toNat := by
      show b.toNat * 2 ^ 0 + 0 = _
      rw [Nat.pow_zero, Nat.mul_one, Nat.add_zero]
    have hnext := ih (z + 1) (by omega) (by omega)
      (fun hzM => by
        have := hpast (by omega)
        rw [hval, firstCode]
        omega)
      (fun hzM => by
        rw [hval]
        by_cases hz' : z ≤ M
        · have h1 := hpast hz'
          obtain ⟨j, hj, hjM⟩ := hx.upper_mem
          have h2 := @rank_at len n j hj
          have h3 := h2.1
          have h4 := h2.2
          rw [countLt_succ, hjM, show M = z by omega] at h4
          rw [hjM, show M = z by omega] at h3
          omega
        · have := hhigh (by omega)
          omega)
    rw [hrest, hval, ← hbit] at hnext
    push_cast at hnext
    exact hnext

/-- **A symbol is read from its code**: `n`, with the bits of the shortest code, then bit by bit. -/
theorem symbol_reads (hl : Lengths n length len) (hx : Extremes n len m M) (ht : Tables n len m M g)
    {s : Nat} (hs : s < n) (hfit : codeOf len n (rank len n s) (len s) < 2 ^ len s)
    (hg : c.p.group = g) (hmin : c.p.gMinlen = m) (ver : Version) (small : Bool) (site : MtfSite)
    (rest : List Bool) :
    Steps (bitDecoder ver small) (c, .parser (.get (.mtf site c.p.gMinlen)))
      (bitsOf (len s) (codeOf len n (rank len n s) (len s)) ++ rest) []
      (standing (c.absorb small (c.p.value ver site s))) rest := by
  have hat := @rank_at len n s hs
  obtain ⟨hmL, -⟩ := code_between hx hat
  have hqn := @rank_lt len n s hs
  obtain ⟨s', hs', hperm, hr⟩ := ht.perm _ hqn
  obtain rfl : s' = s := rank_inj hs' hs hr
  have hread := mtf_reads hl hx ht hat hqn hg ver small site rest (len s' - m) m (by omega)
    (Nat.le_refl m)
  rw [hperm] at hread
  -- the first bits are asked for at once
  obtain ⟨v, hv⟩ : ∃ v, v = codeOf len n (rank len n s') (len s') := ⟨_, rfl⟩
  rw [← hv] at hfit hread ⊢
  have hpre : v / 2 ^ (len s' - m) < 2 ^ m := by
    refine Nat.div_lt_of_lt_mul ?_
    rwa [← Nat.pow_add, Nat.sub_add_cancel hmL]
  have hsplit : bitsOf (len s') v = bitsOf m (v / 2 ^ (len s' - m)) ++ bitsOf (len s' - m) v := by
    rw [← bitsOf_add, Nat.add_sub_cancel' hmL]
  have htake : (bitsOf m (v / 2 ^ (len s' - m)) ++ (bitsOf (len s' - m) v ++ rest)).take m =
      bitsOf m (v / 2 ^ (len s' - m)) := List.take_left' (length_bitsOf _ _)
  have hdrop : (bitsOf m (v / 2 ^ (len s' - m)) ++ (bitsOf (len s' - m) v ++ rest)).drop m =
      bitsOf (len s' - m) v ++ rest := List.drop_left' (length_bitsOf _ _)
  rw [hsplit, List.append_assoc, hmin]
  refine .read rfl ?_ ?_
  · rw [List.length_append, length_bitsOf]
    exact Nat.le_add_right _ _
  · rw [show (Label.mtf site (m : Int)).nbits = m from rfl, htake, hdrop, bitsVal_bitsOf,
      Nat.mod_eq_of_lt hpre]
    exact hread

end

/-! ## 3. The round trip -/

theorem beginVal_of_pos {p : Parse} (h : 0 < p.groupPos) (site : MtfSite) :
    p.beginVal site = { p with groupPos := p.groupPos - 1 }.goto (.mtf site p.gMinlen) := by
  unfold Parse.beginVal
  rw [if_neg (Nat.ne_of_gt h)]

section

variable {μ : Type} [MtfList μ]

/-- **The codes of the encoder are read by the decoder.** For any lengths between 1 and 20 whose
    Kraft sum is at most 1, and the tables built from them: each code fits in its length, and
    written there, with any bits after it, makes `GET_MTF_VAL` deliver its symbol and leave these
    bits; on bits that start with no code `GET_MTF_VAL` returns `BZ_DATA_ERROR`. -/
theorem canonical_roundTrip (ver : Version) (small : Bool) (site : MtfSite) (n : Nat) (h3 : 3 ≤ n)
    (h258 : n ≤ 258) (length code : Cells Nat) (g : HuffTables)
    (hlen : ∀ i : Nat, i < n → 1 ≤ length i ∧ length i ≤ 20)
    (hkraft : ∑ i ∈ Finset.range n, 2 ^ (20 - length i) ≤ 2 ^ 20) (c : Core μ)
    (hpos : 0 < c.p.groupPos) (hgroup : c.p.group = buildTables (fun i => (length i : Nat)) n g)
    (hmin : c.p.gMinlen = c.p.group.minLen) :
    let codes := hbAssignCodes code length (lenBounds n length).1 (lenBounds n length).2 n
    let p := { c.p with groupPos := c.p.groupPos - 1 }
    (∀ s : Nat, s < n → codes s < 2 ^ length s ∧ ∀ rest : List Bool,
      Steps (bitDecoder ver small) (standing (c.absorb small (c.p.beginVal site)))
        (bitsOf (length s) (codes s) ++ rest) []
        (standing ({ c with p := p }.absorb small (p.value ver site s))) rest) ∧
    ∀ t : List Bool, 21 ≤ t.length → (∀ s : Nat, s < n → ¬ bitsOf (length s) (codes s) <+: t) →
      Steps (bitDecoder ver small) (standing (c.absorb small (c.p.beginVal site))) t []
        (standing ({ c with p := p }.absorb small (p.fail .dataError))) (t.drop 21) := by
  intro codes p
  obtain ⟨len, hlenEq⟩ : ∃ len : Nat → Nat, len = fun i : Nat => length i := ⟨_, rfl⟩
  have hcast : ∀ i : Nat, i < n → length i = len i := fun i _ => by rw [hlenEq]
  have hl : Lengths n (fun i => (length i : Nat)) len :=
    { pos := by omega
      small := h258
      cast := fun i hi => by rw [hcast i hi]
      one_le := fun i hi => by rw [← hcast i hi]; exact (hlen i hi).1
      le_twenty := fun i hi => by rw [← hcast i hi]; exact (hlen i hi).2 }
  obtain ⟨m, M, he, hx, ht⟩ := buildTables_tables hl g
  rw [lenBounds_lenRange] at he
  have hbounds : (lenBounds n length).1 = m ∧ (lenBounds n length).2 = M := by
    have h1 := congrArg Prod.fst he
    have h2 := congrArg Prod.snd he
    dsimp only at h1 h2
    omega
  have hcodes : ∀ s : Nat, s < n → codes s = codeOf len n (rank len n s) (len s) := by
    intro s hs
    show hbAssignCodes code length (lenBounds n length).1 (lenBounds n length).2 n s = _
    rw [hbounds.1, hbounds.2]
    exact hbAssignCodes_spec hcast hx.lower hx.upper code hs
  rw [← hgroup] at ht
  have hgm : c.p.gMinlen = (m : Int) := hmin.trans ht.minLen
  have hstart : standing (c.absorb small (c.p.beginVal site)) =
      ({ c with p := p }, .parser (.get (.mtf site m))) := by
    have hlabel : Ctl.get (.mtf site c.p.gMinlen) = .get (.mtf site (m : Int)) := by rw [hgm]
    have hgoto : c.p.beginVal site = p.goto (.mtf site c.p.gMinlen) := beginVal_of_pos hpos site
    rw [hgoto]
    exact congrArg (fun l : Ctl => (({ c with p := p } : Core μ), Point.parser l)) hlabel
  have hm1 := hx.one_le hl
  have hM20 := hx.le_twenty hl
  refine ⟨fun s hs => ⟨?_, fun rest => ?_⟩, fun t h21 hno => ?_⟩
  · rw [hcodes s hs, hcast s hs]
    refine code_fits hl.le_twenty ?_ hs
    rw [hlenEq]
    exact hkraft
  · have hat := @rank_at len n s hs
    have hqn := @rank_lt len n s hs
    obtain ⟨s', hs', hperm, hr⟩ := ht.perm _ hqn
    have hss : s' = s := rank_inj hs' hs hr
    rw [hss] at hperm
    obtain ⟨hmL, hLM⟩ := code_between hx hat
    have hread := @mtf_reads μ _ n m M _ len _ { c with p := p } hl hx ht _ _ hat hqn rfl ver small
      site rest (len s - m) m (by omega) (Nat.le_refl m)
    rw [hperm] at hread
    rw [hstart, hcodes s hs, hcast s hs]
    have hsplit : bitsOf (len s) (codeOf len n (rank len n s) (len s)) =
        bitsOf m (codeOf len n (rank len n s) (len s) / 2 ^ (len s - m)) ++
          bitsOf (len s - m) (codeOf len n (rank len n s) (len s)) := by
      rw [← bitsOf_add]
      congr 1
      omega
    rw [hsplit, List.append_assoc]
    have hlt := code_fits hl.le_twenty (by rw [hlenEq]; exact hkraft) hs
    have hpre : codeOf len n (rank len n s) (len s) / 2 ^ (len s - m) < 2 ^ m := by
      refine Nat.div_lt_of_lt_mul ?_
      rw [← Nat.pow_add, Nat.sub_add_cancel hmL]
      exact hlt
    refine .read rfl ?_ ?_
    · rw [List.length_append, length_bitsOf]
      exact Nat.le_add_right _ _
    · have hn : (Label.mtf site (m : Int)).nbits = m := rfl
      have hle : (bitsOf m (codeOf len n (rank len n s) (len s) / 2 ^ (len s - m))).length = m :=
        length_bitsOf _ _
      rw [hn, List.take_append_of_le_length (by omega), List.take_of_length_le (by omega),
        List.drop_append_of_le_length (by omega), List.drop_of_length_le (by omega), bitsVal_bitsOf,
        Nat.mod_eq_of_lt hpre]
      exact hread
  · have h0 : firstCode len n m = 0 := firstCode_eq_zero hx.lower
    have hmM : m ≤ M := hx.le
    have hno' : ∀ s, s < n → ¬ bitsOf (len s) (codeOf len n (rank len n s) (len s)) <+: t := by
      intro s hs
      rw [← hcodes s hs, ← hcast s hs]
      exact hno s hs
    rw [hstart]
    refine .read rfl ?_ ?_
    · show m ≤ t.length
      omega
    · exact @mtf_rejects μ _ n m M _ len _ { c with p := p } hl hx ht rfl ver small site t h21 hno'
        (21 - m) m (by omega) (Nat.le_refl m) (fun _ => by omega) fun h => absurd hmM (by omega)

end

/-- The lengths 1, 2 and 3: the code word 111 stands for no symbol. -/
def spareLengths : Cells Nat := .ofFn fun i => (i + 1).toNat

/-- A decoder between two symbols, its table built from these lengths. -/
def spareCore : Core (List Byte) :=
  { (DState.init false : DState (List Byte)).core with
    p :=
      { tables := [buildTables (fun i => (spareLengths i : Nat)) 3 .fresh]
        groupPos := bzGSize
        gMinlen := (buildTables (fun i => (spareLengths i : Nat)) 3 .fresh).minLen } }

/-- The last symbol of the three is read back, and 111 is rejected. -/
theorem canonical_roundTrip_three :
    let codes := hbAssignCodes zeros spareLengths 1 3 3
    let p := { spareCore.p with groupPos := 49 }
    Steps (bitDecoder .qbz2 false) (standing (spareCore.absorb false (spareCore.p.beginVal .literal)))
      (bitsOf 3 (codes 2) ++ [true]) []
      (standing ({ spareCore with p := p }.absorb false (p.value .qbz2 .literal 2))) [true] ∧
    Steps (bitDecoder .qbz2 false) (standing (spareCore.absorb false (spareCore.p.beginVal .literal)))
      (List.replicate 21 true) []
      (standing ({ spareCore with p := p }.absorb false (p.fail .dataError))) [] := by
  have hrt := @canonical_roundTrip (List Byte) _ .qbz2 false .literal 3 (by decide) (by decide)
    spareLengths zeros .fresh (by decide) (by decide) spareCore (by decide) rfl rfl
  exact ⟨(hrt.1 2 (by decide)).2 [true], hrt.2 (List.replicate 21 true) (by decide) (by decide)⟩

end Qbz2
