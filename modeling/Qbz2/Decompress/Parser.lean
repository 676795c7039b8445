/-
  File:      Qbz2/Decompress/Parser.lean
  Subject:   The parser of `BZ2_decompress` (`src/decompress.c`), from one `GET_BITS` to the next.

  * `Label` -- the places at which the parser may run out of input (`BZ_X_MAGIC_1`, ...);
  * `Parse` -- the header data, the tables of the block and the saved locals;
  * `Parse.resume ver p l v` -- the code from label `l`, whose `GET_BITS` has delivered `v`, up to
    the next `GET_BITS` (`Ctl.get`), to the table lookup after a literal (`Ctl.fast`), to the end
    of the symbols of a block (`Ctl.block`), or to a `RETURN` (`Ctl.ret`).

  What the code does to the block itself (the MTF list, `unzftab`, `tt`, `ll16`) it does without
  looking at it again until the block is complete; it is recorded here as a list of `Op`s, which
  `Store.apply` carries out. The parser of `src/reference/bzip2` differs in one place only, the
  writing of a run (`Parse.endRun`), and shares the rest.
-/
import Qbz2.Decompress.Huffman

namespace Qbz2

/-! ## 1. Labels -/

/-- The three places where `GET_MTF_VAL` stands: with labels `MTF_1`, `MTF_2`, with `MTF_3`,
    `MTF_4`, and with `MTF_5`, `MTF_6`. -/
inductive MtfSite where
  | first
  | run
  | literal
  deriving DecidableEq

/-- The labels `BZ_X_MAGIC_1` .. `BZ_X_CCRC_4`. `zn` and `zvec` are alive only at the labels of
    `GET_MTF_VAL`, and are saved there. -/
inductive Label where
  | magic1 | magic2 | magic3 | magic4
  | blkhdr1 | blkhdr2 | blkhdr3 | blkhdr4 | blkhdr5 | blkhdr6
  | bcrc1 | bcrc2 | bcrc3 | bcrc4
  | randbit
  | origptr1 | origptr2 | origptr3
  | mapping1 | mapping2
  | selector1 | selector2 | selector3
  | coding1 | coding2 | coding3
  | mtf (site : MtfSite) (zn : Int)
  | mtfNext (site : MtfSite) (zn zvec : Int)
  | endhdr2 | endhdr3 | endhdr4 | endhdr5 | endhdr6
  | ccrc1 | ccrc2 | ccrc3 | ccrc4
  deriving DecidableEq

/-- The number of bits the `GET_BITS` at a label asks for. -/
def Label.nbits : Label → Nat
  | .randbit | .mapping1 | .mapping2 | .selector3 | .coding2 | .coding3 | .mtfNext _ _ _ => 1
  | .selector1 => 3
  | .selector2 => 15
  | .coding1 => 5
  | .mtf _ zn => zn.toNat
  | _ => 8

/-- What the saved `zn` and `zvec` are once `GET_BITS` has delivered. -/
def Label.after : Label → Nat → Label
  | .mtfNext site zn zvec, v => .mtfNext site zn (zvec * 2 + v)
  | l, _ => l

/-- Where the parser goes on. -/
inductive Ctl where
  | get (l : Label)
  | fast
  | block
  | ret (r : Ret)
  deriving DecidableEq

/-- Which of the two decoders. -/
inductive Version where
  | qbz2
  | reference

/-! ## 2. The data of the parser -/

/-- What the parser does to the block under construction. -/
inductive Op where
  | start                        -- `unzftab` cleared, the MTF list initialised
  | count (es : Nat)             -- `unzftab[uc] += es`, `uc` the byte at the front of the list
  | put (pos es : Nat)           -- `es` copies of that byte from `pos` on
  | literal (pos nn : Nat)       -- the byte of index `nn`, moved to the front, written at `pos`
  deriving DecidableEq

/-- The fields of `DState` the parser reads and writes, and its saved locals. The arrays that are
    filled from the front in every block are lists of what this block has filled. The locals are
    zero at the start, as the first call makes them. -/
structure Parse where
  blockSize100k : Nat := 0
  storedBlockCRC : Word32 := 0
  storedCombinedCRC : Word32 := 0
  blockRandomised : Bool := false
  origPtr : Nat := 0
  inUse16 : List Bool := []
  inUse : List Bool := []
  nInUse : Nat := 0
  seqToUnseq : List Byte := []
  selectorMtf : List Nat := []
  selector : List Nat := []
  len : List (List Nat) := []
  lenRow : List Nat := []
  tables : List HuffTables := []
  i : Nat := 0
  j : Nat := 0
  t : Nat := 0
  alphaSize : Nat := 0
  nGroups : Nat := 0
  nSelectors : Nat := 0
  eob : Nat := 0
  groupNo : Int := 0
  groupPos : Nat := 0
  nextSym : Int := 0
  nblockMAX : Nat := 0
  nblock : Nat := 0
  es : Int := 0
  N : Nat := 0
  curr : Nat := 0
  gSel : Nat := 0
  gMinlen : Int := 0

/-- Tables nobody has written to. -/
def HuffTables.fresh : HuffTables :=
  ⟨0, .ofFn fun _ => 0, .ofFn fun _ => 0, .ofFn fun _ => 0, .ofFn fun _ => 0, .ofFn fun _ => 0⟩

/-- The tables of group `gSel`, behind `gLimit`, `gBase`, `gPerm`. -/
def Parse.group (p : Parse) : HuffTables := p.tables.getD p.gSel .fresh

/-- A stretch of the parser: the new data, what it did to the block, and where it goes on. -/
abbrev Parsed := Parse × List Op × Ctl

namespace Parse

/-- On to the next `GET_BITS`. -/
def goto (p : Parse) (l : Label) : Parsed := (p, [], .get l)

/-- `RETURN(r)`. -/
def fail (p : Parse) (r : Ret) : Parsed := (p, [], .ret r)

/-- `if (uc != c) RETURN(r)`. -/
def expect (p : Parse) (v c : Nat) (r : Ret) (l : Label) : Parsed :=
  if v ≠ c then p.fail r else p.goto l

/-! ## 3. The symbols of a block -/

/-- `GET_MTF_VAL` up to its first `GET_BITS`. -/
def beginVal (p : Parse) (site : MtfSite) : Parsed :=
  if p.groupPos = 0 then
    let p := { p with groupNo := p.groupNo + 1 }
    if p.groupNo ≥ p.nSelectors then p.fail .dataError
    else
      let p := { p with
        groupPos := bzGSize
        gSel := p.selector.getD p.groupNo.toNat 0 }
      let p := { p with gMinlen := p.group.minLen }
      { p with groupPos := p.groupPos - 1 }.goto (.mtf site p.gMinlen)
  else
    { p with groupPos := p.groupPos - 1 }.goto (.mtf site p.gMinlen)

/-- One round of the loop over `RUNA` and `RUNB`, up to its `GET_MTF_VAL`. -/
def runStep (p : Parse) : Parsed :=
  if p.N ≥ 2 * 1024 * 1024 then p.fail .dataError
  else
    { p with
      es := if p.nextSym = bzRunA then p.es + p.N else p.es + 2 * p.N
      N := p.N * 2 }.beginVal .run

/-- `while (True)` over the symbols, with the next one in `nextSym`. -/
def symbol (p : Parse) : Parsed :=
  if p.nextSym = p.eob then (p, [], .block)
  else if p.nextSym = bzRunA ∨ p.nextSym = bzRunB then { p with es := -1, N := 1 }.runStep
  else if p.nblock ≥ p.nblockMAX then p.fail .dataError
  else
    ({ p with nblock := p.nblock + 1 }, [.literal p.nblock (p.nextSym - 1).toNat], .fast)

/-- The reference decoder writes a run byte by byte: `while (es > 0) { if (nblock >= nblockMAX)
    RETURN(BZ_DATA_ERROR); ...; nblock++; es--; }`. The writes, `nblock`, and whether the run
    fitted. What the loop leaves of `es` is not kept: the next run sets it anew. -/
def writeRun (nblockMAX : Nat) : Nat → Nat → List Op × Nat × Bool
  | 0, nblock => ([], nblock, true)
  | es + 1, nblock =>
    if nblock ≥ nblockMAX then ([], nblock, false)
    else
      let r := writeRun nblockMAX es (nblock + 1)
      (.put nblock 1 :: r.1, r.2)

/-- The end of a run: `es++`, the count, and the bytes. -/
def endRun (ver : Version) (p : Parse) : Parsed :=
  let p := { p with es := p.es + 1 }
  let es := p.es.toNat
  match ver with
  | .qbz2 =>
    if p.nblock + es > p.nblockMAX then (p, [.count es], .ret .dataError)
    else
      let (p', ops, ctl) := { p with nblock := p.nblock + es }.symbol
      (p', .count es :: .put p.nblock es :: ops, ctl)
  | .reference =>
    let (puts, nblock, fits) := writeRun p.nblockMAX es p.nblock
    let p := { p with nblock }
    if fits then
      let (p', ops, ctl) := p.symbol
      (p', .count es :: (puts ++ ops), ctl)
    else (p, .count es :: puts, .ret .dataError)

/-- What follows a `GET_MTF_VAL` that has delivered its symbol. -/
def value (ver : Version) (p : Parse) (site : MtfSite) (sym : Int) : Parsed :=
  let p := { p with nextSym := sym }
  match site with
  | .first | .literal => p.symbol
  | .run => if p.nextSym = bzRunA ∨ p.nextSym = bzRunB then p.runStep else endRun ver p

/-- The loop of `GET_MTF_VAL`. -/
def mtf (ver : Version) (p : Parse) (site : MtfSite) (zn zvec : Int) : Parsed :=
  match mtfVal p.group zn zvec with
  | .error => p.fail .dataError
  | .symbol sym => value ver p site sym
  | .more => p.goto (.mtfNext site (zn + 1) zvec)

/-- The start of the symbols: `EOB`, `nblockMAX`, the cleared counters, the MTF list. -/
def startMtf (p : Parse) : Parsed :=
  let (p, ops, ctl) :=
    { p with
      eob := p.nInUse + 1
      nblockMAX := 100000 * p.blockSize100k
      groupNo := -1
      groupPos := 0
      nblock := 0 }.beginVal .first
  (p, .start :: ops, ctl)

/-! ## 4. The tables of a block -/

/-- `for (i = ...; i < 16; i++) if (inUse16[i])`: the next `i`, 16 if there is none. -/
def nextInUse16 (inUse16 : List Bool) (i : Nat) : Nat :=
  ((List.range 16).find? fun k => decide (i ≤ k) && inUse16.getD k false).getD 16

/-- `makeMaps_d`. -/
def makeMaps (p : Parse) : Parse :=
  let seqToUnseq := ((List.range 256).filter fun i => p.inUse.getD i false).map (BitVec.ofNat 8)
  { p with seqToUnseq, nInUse := seqToUnseq.length }

/-- The mapping bits of the next used group of 16, or the end of the mapping table. -/
def mappingFrom (p : Parse) (i : Nat) : Parsed :=
  let p := { p with i := nextInUse16 p.inUse16 i }
  if p.i < 16 then { p with j := 0 }.goto .mapping2
  else
    let p := p.makeMaps
    if p.nInUse = 0 then p.fail .dataError
    else { p with alphaSize := p.nInUse + 2 }.goto .selector1

/-- `tmp = pos[v]; while (v > 0) { pos[v] = pos[v-1]; v--; } pos[0] = tmp`. -/
def moveToFront (pos : List Nat) (v : Nat) : List Nat :=
  pos.getD v 0 :: (pos.take v ++ pos.drop (v + 1))

/-- Undoing the MTF coding of the selectors. -/
def undoSelectorMtf (pos : List Nat) : List Nat → List Nat
  | [] => []
  | v :: mtf => pos.getD v 0 :: undoSelectorMtf (moveToFront pos v) mtf

/-- The end of the selectors: only the first `BZ_MAX_SELECTORS` count. -/
def endSelectors (p : Parse) : Parsed :=
  let nSelectors := if p.nSelectors > bzMaxSelectors then bzMaxSelectors else p.nSelectors
  { p with
    nSelectors
    selector := undoSelectorMtf (List.range p.nGroups) (p.selectorMtf.take nSelectors)
    t := 0
    len := [] }.goto .coding1

/-- `if (curr < 1 || curr > 20) RETURN(BZ_DATA_ERROR); GET_BIT(BZ_X_CODING_2, uc)`. -/
def codingFrom (p : Parse) : Parsed :=
  if p.curr < 1 ∨ p.curr > 20 then p.fail .dataError else p.goto .coding2

/-- The tables of all groups. -/
def buildAll (p : Parse) : Parse :=
  { p with
    tables := p.len.map fun row =>
      buildTables (fun i => (row.getD i.toNat 0 : Nat)) p.alphaSize .fresh }

/-- `len[t][i] = curr`, and on to the next symbol, the next group, or the symbols of the block. -/
def endLength (p : Parse) : Parsed :=
  let p := { p with lenRow := p.lenRow ++ [p.curr], i := p.i + 1 }
  if p.i < p.alphaSize then p.codingFrom
  else
    let p := { p with len := p.len ++ [p.lenRow], t := p.t + 1 }
    if p.t < p.nGroups then p.goto .coding1 else p.buildAll.startMtf

/-- `selectorMtf[i] = j`, where there is room, and on to the next selector. -/
def endSelector (p : Parse) : Parsed :=
  let p := { p with
    selectorMtf := if p.i < bzMaxSelectors then p.selectorMtf ++ [p.j] else p.selectorMtf
    i := p.i + 1 }
  if p.i < p.nSelectors then { p with j := 0 }.goto .selector3 else p.endSelectors

/-! ## 5. The labels -/

/-- `(crc << 8) | (UInt32)uc`. -/
def pushCrc (crc : Word32) (uc : Nat) : Word32 := (crc <<< 8) ||| BitVec.ofNat 32 uc

/-- The code from label `l` on, whose `GET_BITS` has delivered `v`. -/
def resume (ver : Version) (p : Parse) (l : Label) (v : Nat) : Parsed :=
  match l with
  | .magic1 => p.expect v 0x42 .dataErrorMagic .magic2
  | .magic2 => p.expect v 0x5a .dataErrorMagic .magic3
  | .magic3 => p.expect v 0x68 .dataErrorMagic .magic4
  | .magic4 =>
    let p := { p with blockSize100k := v }
    if p.blockSize100k < 0x30 + 1 ∨ p.blockSize100k > 0x30 + 9 then p.fail .dataErrorMagic
    else { p with blockSize100k := p.blockSize100k - 0x30 }.goto .blkhdr1
  | .blkhdr1 => if v = 0x17 then p.goto .endhdr2 else p.expect v 0x31 .dataError .blkhdr2
  | .blkhdr2 => p.expect v 0x41 .dataError .blkhdr3
  | .blkhdr3 => p.expect v 0x59 .dataError .blkhdr4
  | .blkhdr4 => p.expect v 0x26 .dataError .blkhdr5
  | .blkhdr5 => p.expect v 0x53 .dataError .blkhdr6
  | .blkhdr6 =>
    if v ≠ 0x59 then p.fail .dataError else { p with storedBlockCRC := 0 }.goto .bcrc1
  | .bcrc1 => { p with storedBlockCRC := pushCrc p.storedBlockCRC v }.goto .bcrc2
  | .bcrc2 => { p with storedBlockCRC := pushCrc p.storedBlockCRC v }.goto .bcrc3
  | .bcrc3 => { p with storedBlockCRC := pushCrc p.storedBlockCRC v }.goto .bcrc4
  | .bcrc4 => { p with storedBlockCRC := pushCrc p.storedBlockCRC v }.goto .randbit
  | .randbit => { p with blockRandomised := decide (v = 1), origPtr := 0 }.goto .origptr1
  | .origptr1 => { p with origPtr := p.origPtr * 256 + v }.goto .origptr2
  | .origptr2 => { p with origPtr := p.origPtr * 256 + v }.goto .origptr3
  | .origptr3 =>
    let p := { p with origPtr := p.origPtr * 256 + v }
    if p.origPtr > 10 + 100000 * p.blockSize100k then p.fail .dataError
    else { p with i := 0, inUse16 := [] }.goto .mapping1
  | .mapping1 =>
    let p := { p with inUse16 := p.inUse16 ++ [decide (v = 1)], i := p.i + 1 }
    if p.i < 16 then p.goto .mapping1
    else { p with inUse := List.replicate 256 false }.mappingFrom 0
  | .mapping2 =>
    let p := { p with
      inUse := if v = 1 then p.inUse.set (p.i * 16 + p.j) true else p.inUse
      j := p.j + 1 }
    if p.j < 16 then p.goto .mapping2 else p.mappingFrom (p.i + 1)
  | .selector1 =>
    let p := { p with nGroups := v }
    if p.nGroups < 2 ∨ p.nGroups > 6 then p.fail .dataError else p.goto .selector2
  | .selector2 =>
    let p := { p with nSelectors := v }
    if p.nSelectors < 1 then p.fail .dataError
    else { p with i := 0, j := 0, selectorMtf := [] }.goto .selector3
  | .selector3 =>
    if v = 0 then p.endSelector
    else
      let p := { p with j := p.j + 1 }
      if p.j ≥ p.nGroups then p.fail .dataError else p.goto .selector3
  | .coding1 => { p with curr := v, i := 0, lenRow := [] }.codingFrom
  | .coding2 => if v = 0 then p.endLength else p.goto .coding3
  | .coding3 => { p with curr := if v = 0 then p.curr + 1 else p.curr - 1 }.codingFrom
  | .mtf site zn => p.mtf ver site zn v
  | .mtfNext site zn zvec => p.mtf ver site zn (zvec * 2 + v)
  | .endhdr2 => p.expect v 0x72 .dataError .endhdr3
  | .endhdr3 => p.expect v 0x45 .dataError .endhdr4
  | .endhdr4 => p.expect v 0x38 .dataError .endhdr5
  | .endhdr5 => p.expect v 0x50 .dataError .endhdr6
  | .endhdr6 =>
    if v ≠ 0x90 then p.fail .dataError else { p with storedCombinedCRC := 0 }.goto .ccrc1
  | .ccrc1 => { p with storedCombinedCRC := pushCrc p.storedCombinedCRC v }.goto .ccrc2
  | .ccrc2 => { p with storedCombinedCRC := pushCrc p.storedCombinedCRC v }.goto .ccrc3
  | .ccrc3 => { p with storedCombinedCRC := pushCrc p.storedCombinedCRC v }.goto .ccrc4
  | .ccrc4 =>
    { p with storedCombinedCRC := pushCrc p.storedCombinedCRC v }.fail .streamEnd

end Parse

end Qbz2
