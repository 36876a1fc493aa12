import RgmNode.Validation.MerkleAgreement

/-!
# Partial merkle trees prove what they report

`ExtractMatches` walks down with bits and hashes that another node sent.  Where the hash of a node
is that of the tree, and the hash function has no collision among the pairs that are hashed, so
are the hashes of its children.

1. `extractMatches_sound` — with the root of the transactions, only transactions are reported
2. `extractMatches_build` — the tree that is built for transactions reports the matched ones
-/

namespace RgmNode

open List Nat

namespace CPartialMerkleTree

open Merkle

/-! ## 1. The pairs that are hashed -/

section

variable (cr : Crypto) (vTxid : List Uint256)

/-- The pair that `CalcHash` hashes for a node above the leaves -/
def children (height pos : Nat) : Uint256 × Uint256 :=
  (calcHash cr vTxid height (pos * 2),
    if pos * 2 + 1 < calcTreeWidth vTxid.length height then calcHash cr vTxid height (pos * 2 + 1)
    else calcHash cr vTxid height (pos * 2))

def treePairs : List (Uint256 × Uint256) :=
  (List.range (treeHeight vTxid.length)).flatMap fun height =>
    (List.range (calcTreeWidth vTxid.length (height + 1))).map (children cr vTxid height)

def Extraction.readBit (s : Extraction) : Extraction := { s with nBitsUsed := s.nBitsUsed + 1 }

/-- The pairs that `TraverseAndExtract` hashes -/
def extractPairs (t : CPartialMerkleTree) : Nat → Nat → Extraction → List (Uint256 × Uint256)
  | 0, _, _ => []
  | height + 1, pos, s =>
    if t.vBits[s.nBitsUsed]? = some true then
      let left := t.traverseAndExtract cr height (pos * 2) s.readBit
      if pos * 2 + 1 < calcTreeWidth t.nTransactions height then
        let right := t.traverseAndExtract cr height (pos * 2 + 1) left.2
        (left.1, right.1) ::
          (extractPairs t height (pos * 2) s.readBit ++ extractPairs t height (pos * 2 + 1) left.2)
      else (left.1, left.1) :: extractPairs t height (pos * 2) s.readBit
    else []

/-- The pairs that `ExtractMatches` hashes -/
def hashedPairs (t : CPartialMerkleTree) : List (Uint256 × Uint256) :=
  extractPairs cr t (treeHeight t.nTransactions) 0 ⟨0, 0, t.fBad, [], []⟩

/-- No pair of `ps` has the hash of another pair of `qs`. -/
def NoCollision (ps qs : List (Uint256 × Uint256)) : Prop :=
  ∀ p ∈ ps, ∀ q ∈ qs, node cr p.1 p.2 = node cr q.1 q.2 → p = q

instance (ps qs : List (Uint256 × Uint256)) : Decidable (NoCollision cr ps qs) :=
  @List.decidableBAll _ _ (fun _ => List.decidableBAll _ qs) ps

end

variable {cr : Crypto} {vTxid : List Uint256} {t : CPartialMerkleTree} {height pos : Nat}
  {s s' : Extraction}

theorem children_mem_treePairs (cr : Crypto) (hn : vTxid.length < 2 ^ 31)
    (hheight : height < treeHeight vTxid.length) (hpos : pos * 2 ^ (height + 1) < vTxid.length) :
    children cr vTxid height pos ∈ treePairs cr vTxid := by
  have hle : treeHeight vTxid.length ≤ 31 := (treeHeight_spec (zero_lt_of_lt hpos) hn).2.2
  have hwidth := (lt_calcTreeWidth hn (le_trans hheight hle)).mpr hpos
  exact mem_flatMap.mpr ⟨height, mem_range.mpr hheight, mem_map_of_mem (mem_range.mpr hwidth)⟩

/-! ## 2. The walk -/

theorem traverse_none (hbit : t.vBits[s.nBitsUsed]? = none) :
    t.traverseAndExtract cr height pos s = (0, { s with fBad := true }) := by
  unfold traverseAndExtract
  rw [hbit]

variable {b : Bool} {first last : Nat}

theorem traverse_leaf (hbit : t.vBits[s.nBitsUsed]? = some b) :
    t.traverseAndExtract cr 0 pos s = t.useHash b pos s.readBit := by
  unfold traverseAndExtract
  rw [hbit]
  rfl

theorem traverse_closed (hbit : t.vBits[s.nBitsUsed]? = some false) :
    t.traverseAndExtract cr (height + 1) pos s = t.useHash false pos s.readBit := by
  unfold traverseAndExtract
  rw [hbit]
  rfl

theorem traverse_open (hbit : t.vBits[s.nBitsUsed]? = some true) :
    t.traverseAndExtract cr (height + 1) pos s =
      let left := t.traverseAndExtract cr height (pos * 2) s.readBit
      let right := t.traverseAndExtract cr height (pos * 2 + 1) left.2
      if pos * 2 + 1 < calcTreeWidth t.nTransactions height then
        (node cr left.1 right.1, { right.2 with fBad := right.2.fBad || right.1 == left.1 })
      else (node cr left.1 left.1, left.2) := by
  conv_lhs => unfold traverseAndExtract
  rw [hbit]
  rfl

theorem useHash_readBit {hash : Uint256} (hhash : t.vHash[s.nHashUsed]? = some hash) :
    t.useHash b pos s.readBit = (hash, { s with
      nBitsUsed := s.nBitsUsed + 1
      nHashUsed := s.nHashUsed + 1
      vMatch := if b then s.vMatch ++ [hash] else s.vMatch
      vnIndex := if b then s.vnIndex ++ [pos] else s.vnIndex }) := by
  unfold useHash
  rw [show t.vHash[s.readBit.nHashUsed]? = some hash from hhash]
  rfl

theorem fBad_useHash_none (hhash : t.vHash[s.nHashUsed]? = none) :
    (t.useHash b pos s.readBit).2.fBad = true := by
  unfold useHash
  rw [show t.vHash[s.readBit.nHashUsed]? = none from hhash]

theorem fBad_of_useHash (hgood : (t.useHash b pos s).2.fBad = false) : s.fBad = false := by
  unfold useHash at hgood
  split at hgood
  · cases hgood
  · exact hgood

theorem fBad_of_traverse (hgood : (t.traverseAndExtract cr height pos s).2.fBad = false) :
    s.fBad = false := by
  induction height generalizing pos s with
  | zero =>
    cases hbit : t.vBits[s.nBitsUsed]? with
    | none =>
      rw [traverse_none hbit] at hgood
      cases hgood
    | some b =>
      rw [traverse_leaf hbit] at hgood
      exact fBad_of_useHash (s := s.readBit) hgood
  | succ height ih =>
    match hbit : t.vBits[s.nBitsUsed]? with
    | none =>
      rw [traverse_none hbit] at hgood
      cases hgood
    | some false =>
      rw [traverse_closed hbit] at hgood
      exact fBad_of_useHash (s := s.readBit) hgood
    | some true =>
      rw [traverse_open hbit] at hgood
      split at hgood
      · exact ih (s := s.readBit) (ih (Bool.or_eq_false_iff.mp hgood).1)
      · exact ih (s := s.readBit) hgood

/-! ## 3. What is reported -/

/-- From `s` to `s'` transactions with positions from `first` up to `last` were reported. -/
def Reports (vTxid : List Uint256) (first last : Nat) (s s' : Extraction) : Prop :=
  ∃ found : List Nat, found.Pairwise (· < ·) ∧
    (∀ i ∈ found, first ≤ i ∧ i < last ∧ i < vTxid.length) ∧
    s'.vnIndex = s.vnIndex ++ found ∧ s'.vMatch = s.vMatch ++ found.map (vTxid.getD · 0)

theorem Reports.nothing (hindex : s'.vnIndex = s.vnIndex) (hmatch : s'.vMatch = s.vMatch) :
    Reports vTxid first last s s' :=
  ⟨[], .nil, fun _ hi => absurd hi not_mem_nil, by rw [hindex, append_nil],
    by rw [hmatch, map_nil, append_nil]⟩

theorem Reports.trans {middle : Nat} {s'' : Extraction} (hfm : first ≤ middle) (hml : middle ≤ last)
    (h : Reports vTxid first middle s s') (h' : Reports vTxid middle last s' s'') :
    Reports vTxid first last s s'' := by
  obtain ⟨found, hsorted, hrange, hindex, hmatch⟩ := h
  obtain ⟨found', hsorted', hrange', hindex', hmatch'⟩ := h'
  refine ⟨found ++ found', ?_, ?_, ?_, ?_⟩
  · refine pairwise_append.mpr ⟨hsorted, hsorted', fun i hi j hj => ?_⟩
    exact lt_of_lt_of_le (hrange i hi).2.1 (hrange' j hj).1
  · intro i hi
    rcases mem_append.mp hi with hi | hi
    · exact ⟨(hrange i hi).1, lt_of_lt_of_le (hrange i hi).2.1 hml, (hrange i hi).2.2⟩
    · exact ⟨le_trans hfm (hrange' i hi).1, (hrange' i hi).2⟩
  · rw [hindex', hindex, append_assoc]
  · rw [hmatch', hmatch, map_append, append_assoc]

theorem Reports.mono {last' : Nat} (hle : last ≤ last') (h : Reports vTxid first last s s') :
    Reports vTxid first last' s s' := by
  obtain ⟨found, hsorted, hrange, h⟩ := h
  exact ⟨found, hsorted, fun i hi =>
    ⟨(hrange i hi).1, lt_of_lt_of_le (hrange i hi).2.1 hle, (hrange i hi).2.2⟩, h⟩

/-- A hash that is used is reported at most as the transaction of its position. -/
theorem reports_useHash (hgood : (t.useHash b pos s.readBit).2.fBad = false)
    (hleaf : b = true → first ≤ pos ∧ pos < last ∧ pos < vTxid.length ∧
      (t.useHash b pos s.readBit).1 = vTxid.getD pos 0) :
    Reports vTxid first last s (t.useHash b pos s.readBit).2 := by
  cases hhash : t.vHash[s.nHashUsed]? with
  | none =>
    rw [fBad_useHash_none hhash] at hgood
    cases hgood
  | some hash =>
    rw [useHash_readBit hhash] at hleaf ⊢
    cases b with
    | false => exact .nothing rfl rfl
    | true =>
      obtain ⟨hfirst, hlast, hpos, rfl⟩ := hleaf rfl
      refine ⟨[pos], pairwise_singleton _ _, ?_, rfl, rfl⟩
      rintro i hi
      obtain rfl := mem_singleton.mp hi
      exact ⟨hfirst, hlast, hpos⟩

/-- A part whose hash is that of the tree reports transactions.  The induction is on the height: the
hashes of both children are those of the tree, since the pairs have the same hash. -/
theorem reports_traverse (ht : t.nTransactions = vTxid.length) (hn : vTxid.length < 2 ^ 31)
    (hheight : height ≤ treeHeight vTxid.length) (hpos : pos * 2 ^ height < vTxid.length)
    (hfree : NoCollision cr (extractPairs cr t height pos s) (treePairs cr vTxid))
    (hgood : (t.traverseAndExtract cr height pos s).2.fBad = false)
    (hroot : (t.traverseAndExtract cr height pos s).1 = calcHash cr vTxid height pos) :
    Reports vTxid (pos * 2 ^ height) ((pos + 1) * 2 ^ height) s
      (t.traverseAndExtract cr height pos s).2 := by
  induction height generalizing pos s with
  | zero =>
    rw [pow_zero, mul_one] at hpos
    rw [pow_zero, mul_one, mul_one]
    cases hbit : t.vBits[s.nBitsUsed]? with
    | none =>
      rw [traverse_none hbit] at hgood
      cases hgood
    | some b =>
      rw [traverse_leaf hbit] at hgood hroot ⊢
      exact reports_useHash hgood fun _ => ⟨le_refl _, lt_succ_self _, hpos, hroot⟩
  | succ height ih =>
    match hbit : t.vBits[s.nBitsUsed]? with
    | none =>
      rw [traverse_none hbit] at hgood
      cases hgood
    | some false =>
      rw [traverse_closed hbit] at hgood ⊢
      exact reports_useHash hgood nofun
    | some true =>
      have hmem := children_mem_treePairs cr hn hheight hpos
      have hle31 : height ≤ 31 := le_trans (le_of_succ_le hheight)
        (treeHeight_spec (zero_lt_of_lt hpos) hn).2.2
      have hle : (pos * 2 + 1) * 2 ^ height ≤ (pos * 2 + 1 + 1) * 2 ^ height :=
        mul_le_mul_right _ (le_succ _)
      rw [first_child] at hpos
      rw [NoCollision, extractPairs, if_pos hbit] at hfree
      rw [traverse_open hbit] at hgood hroot ⊢
      rw [first_child, end_child]
      by_cases hmore : pos * 2 + 1 < calcTreeWidth t.nTransactions height
      · rw [if_pos hmore] at hgood hroot hfree ⊢
        rw [forall_mem_cons, forall_mem_append] at hfree
        obtain ⟨hpair, hfreeLeft, hfreeRight⟩ := hfree
        have hchildren := hpair _ hmem hroot
        rw [ht] at hmore
        rw [children, if_pos hmore, Prod.mk.injEq] at hchildren
        have hgoodRight := (Bool.or_eq_false_iff.mp hgood).1
        have hposRight := (lt_calcTreeWidth hn hle31).mp hmore
        have hleft := ih (le_of_succ_le hheight) hpos hfreeLeft (fBad_of_traverse hgoodRight)
          hchildren.1
        exact hleft.trans (second_child height pos ▸ le_add_right _ _) hle
          (ih (le_of_succ_le hheight) hposRight hfreeRight hgoodRight hchildren.2)
      · rw [if_neg hmore] at hgood hroot hfree ⊢
        rw [forall_mem_cons] at hfree
        have hchildren := hfree.1 _ hmem hroot
        exact (ih (le_of_succ_le hheight) hpos hfree.2 hgood
          (Prod.mk.inj hchildren).1).mono hle

/-! ## 4. What is built -/

/-- The matched positions among `count` from `first` on -/
def matched (nTransactions : Nat) (vMatch : List Bool) (first count : Nat) : List Nat :=
  (List.range' first count).filter fun i => decide (i < nTransactions) && vMatch.getD i false

variable {vMatch : List Bool} {n : Nat}

theorem parentOfMatch_eq_false_iff :
    parentOfMatch n vMatch height pos = false ↔
      matched n vMatch (pos * 2 ^ height) (2 ^ height) = [] := by
  rw [parentOfMatch, matched, range'_eq_map_range, filter_eq_nil_iff, any_eq_false,
    forall_mem_map]

theorem matched_succ : matched n vMatch (pos * 2 ^ (height + 1)) (2 ^ (height + 1)) =
    matched n vMatch (pos * 2 * 2 ^ height) (2 ^ height) ++
      matched n vMatch ((pos * 2 + 1) * 2 ^ height) (2 ^ height) := by
  have hcount : 2 ^ (height + 1) = 2 ^ height + 2 ^ height := by ring
  rw [matched, matched, matched, first_child, second_child, hcount, ← filter_append,
    range'_append_1]

theorem matched_beyond {count : Nat} (hle : n ≤ first) : matched n vMatch first count = [] := by
  refine filter_eq_nil_iff.mpr fun i hi => ?_
  have hge := (mem_range'_1.mp hi).1
  rw [decide_eq_false (not_lt.mpr (le_trans hle hge))]
  exact Bool.false_ne_true

theorem getElem?_of_drop {α : Type} {l rest : List α} {k : Nat} {a : α}
    (h : l.drop k = a :: rest) : l[k]? = some a ∧ l.drop (k + 1) = rest := by
  constructor
  · have hget : (l.drop k)[0]? = l[k + 0]? := getElem?_drop
    rw [h] at hget
    exact hget.symm
  · rw [← drop_drop, h]
    rfl

theorem drop_add_length {α : Type} {l xs rest : List α} {k : Nat} (h : l.drop k = xs ++ rest) :
    l.drop (k + xs.length) = rest := by
  rw [← drop_drop, h, drop_left]

/-- The first transactions below nodes with the same hash are the same. -/
theorem getD_of_calcHash_eq {q : Nat} (hn : vTxid.length < 2 ^ 31)
    (hfree : NoCollision cr (treePairs cr vTxid) (treePairs cr vTxid))
    (hheight : height ≤ treeHeight vTxid.length) (hpos : pos * 2 ^ height < vTxid.length)
    (hq : q * 2 ^ height < vTxid.length)
    (heq : calcHash cr vTxid height pos = calcHash cr vTxid height q) :
    vTxid.getD (pos * 2 ^ height) 0 = vTxid.getD (q * 2 ^ height) 0 := by
  induction height generalizing pos q with
  | zero =>
    rw [pow_zero, mul_one, mul_one]
    exact heq
  | succ height ih =>
    have hchildren := hfree _ (children_mem_treePairs cr hn hheight hpos) _
      (children_mem_treePairs cr hn hheight hq) heq
    rw [first_child] at hpos hq
    rw [first_child, first_child]
    exact ih (le_of_succ_le hheight) hpos hq (Prod.mk.inj hchildren).1

/-- Siblings have different hashes, if the transactions are different. -/
theorem calcHash_ne_sibling (hn : vTxid.length < 2 ^ 31) (hnodup : vTxid.Nodup)
    (hfree : NoCollision cr (treePairs cr vTxid) (treePairs cr vTxid))
    (hheight : height ≤ treeHeight vTxid.length)
    (hpos : (pos + 1) * 2 ^ height < vTxid.length) :
    calcHash cr vTxid height (pos + 1) ≠ calcHash cr vTxid height pos := by
  intro heq
  have hpos' : pos * 2 ^ height < vTxid.length :=
    lt_of_le_of_lt (mul_le_mul_right _ (le_succ pos)) hpos
  have hget := getD_of_calcHash_eq hn hfree hheight hpos hpos' heq
  rw [getD_eq_getElem?_getD, getD_eq_getElem?_getD, getElem?_eq_getElem hpos,
    getElem?_eq_getElem hpos', Option.getD_some, Option.getD_some,
    hnodup.getElem_inj_iff] at hget
  have hsame := eq_of_mul_eq_mul_right (Nat.two_pow_pos height) hget
  exact absurd hsame (succ_ne_self pos)

def Extraction.after (s : Extraction) (vTxid : List Uint256) (built : List Bool × List Uint256)
    (found : List Nat) : Extraction where
  nBitsUsed := s.nBitsUsed + built.1.length
  nHashUsed := s.nHashUsed + built.2.length
  fBad := s.fBad
  vMatch := s.vMatch ++ found.map (vTxid.getD · 0)
  vnIndex := s.vnIndex ++ found

theorem Extraction.after_nil : s.after vTxid ([], []) [] = s := by
  simp [after]

theorem Extraction.after_after {left right : List Bool × List Uint256} {found found' : List Nat} :
    (s.readBit.after vTxid left found).after vTxid right found' =
      s.after vTxid (true :: (left.1 ++ right.1), left.2 ++ right.2) (found ++ found') := by
  simp [after, readBit, add_assoc, add_comm 1]

/-- The walk through a part that was built gives its hash and reports its matches.  It uses what was
built and leaves the rest. -/
theorem traverseAndExtract_build (ht : t.nTransactions = vTxid.length)
    (hn : vTxid.length < 2 ^ 31) (hnodup : vTxid.Nodup)
    (hfree : NoCollision cr (treePairs cr vTxid) (treePairs cr vTxid))
    (hheight : height ≤ treeHeight vTxid.length) (hpos : pos * 2 ^ height < vTxid.length)
    {bits : List Bool} {hashes : List Uint256}
    (hbits : t.vBits.drop s.nBitsUsed =
      (traverseAndBuild cr vTxid vMatch height pos).1 ++ bits)
    (hhashes : t.vHash.drop s.nHashUsed =
      (traverseAndBuild cr vTxid vMatch height pos).2 ++ hashes) :
    t.traverseAndExtract cr height pos s =
      (calcHash cr vTxid height pos,
        s.after vTxid (traverseAndBuild cr vTxid vMatch height pos)
          (matched vTxid.length vMatch (pos * 2 ^ height) (2 ^ height))) := by
  induction height generalizing pos s bits hashes with
  | zero =>
    obtain ⟨hbit, -⟩ := getElem?_of_drop hbits
    obtain ⟨hhash, -⟩ := getElem?_of_drop hhashes
    rw [traverse_leaf hbit, useHash_readBit hhash]
    cases hparent : parentOfMatch vTxid.length vMatch 0 pos with
    | false =>
      rw [parentOfMatch_eq_false_iff.mp hparent, Extraction.after, map_nil, append_nil, append_nil]
      rfl
    | true =>
      have hone : matched vTxid.length vMatch (pos * 2 ^ 0) (2 ^ 0) = [pos] := by
        simpa [parentOfMatch, matched] using hparent
      rw [hone]
      rfl
  | succ height ih =>
    have hle31 : height ≤ 31 := le_trans (le_of_succ_le hheight)
      (treeHeight_spec (zero_lt_of_lt hpos) hn).2.2
    rw [traverseAndBuild] at hbits hhashes ⊢
    cases hparent : parentOfMatch vTxid.length vMatch (height + 1) pos with
    | false =>
      rw [hparent, if_neg Bool.false_ne_true] at hbits hhashes
      obtain ⟨hbit, -⟩ := getElem?_of_drop hbits
      obtain ⟨hhash, -⟩ := getElem?_of_drop hhashes
      rw [traverse_closed hbit, useHash_readBit hhash, parentOfMatch_eq_false_iff.mp hparent,
        Extraction.after, map_nil, append_nil, append_nil]
      rfl
    | true =>
      have hpos' : pos * 2 * 2 ^ height < vTxid.length := by rwa [first_child] at hpos
      rw [hparent, if_pos rfl] at hbits hhashes
      rw [cons_append] at hbits
      obtain ⟨hbit, hbits⟩ := getElem?_of_drop hbits
      rw [append_assoc] at hbits hhashes
      have hleft := ih (s := s.readBit) (le_of_succ_le hheight) hpos' hbits hhashes
      rw [if_pos rfl, matched_succ, traverse_open hbit, hleft, calcHash, ht]
      rw [← Extraction.after_after]
      by_cases hmore : pos * 2 + 1 < calcTreeWidth vTxid.length height
      · have hposRight := (lt_calcTreeWidth hn hle31).mp hmore
        rw [if_pos hmore] at hbits hhashes
        have hright := fun found => ih
          (s := s.readBit.after vTxid (traverseAndBuild cr vTxid vMatch height (pos * 2)) found)
          (le_of_succ_le hheight) hposRight (drop_add_length hbits) (drop_add_length hhashes)
        rw [if_pos hmore, if_pos hmore, if_pos hmore, hright, beq_false_of_ne
          (calcHash_ne_sibling hn hnodup hfree (le_of_succ_le hheight) hposRight),
          Bool.or_false]
      · rw [if_neg hmore, if_neg hmore, if_neg hmore]
        rw [lt_calcTreeWidth hn hle31, not_lt] at hmore
        rw [matched_beyond hmore, Extraction.after_nil]

/-- What is built has as many hashes as transactions at most, and a bit for each hash. -/
theorem length_traverseAndBuild (cr : Crypto) (vMatch : List Bool)
    (hn : vTxid.length < 2 ^ 31) (hheight : height ≤ 31) (hpos : pos * 2 ^ height < vTxid.length) :
    (traverseAndBuild cr vTxid vMatch height pos).2.length ≤
        (traverseAndBuild cr vTxid vMatch height pos).1.length ∧
      (traverseAndBuild cr vTxid vMatch height pos).2.length ≤ 2 ^ height ∧
      pos * 2 ^ height + (traverseAndBuild cr vTxid vMatch height pos).2.length ≤
        vTxid.length := by
  induction height generalizing pos with
  | zero => exact ⟨le_refl 1, le_refl 1, hpos⟩
  | succ height ih =>
    have hsecond := second_child height pos
    have hcount : 2 ^ (height + 1) = 2 ^ height + 2 ^ height := by ring
    rw [traverseAndBuild]
    split
    · rw [first_child] at hpos
      obtain ⟨hbits, hle, hend⟩ := ih (by omega) hpos
      rw [first_child, length_append, length_cons, length_append]
      split
      · next hmore =>
        obtain ⟨hbits', hle', hend'⟩ := ih (by omega) ((lt_calcTreeWidth hn (by omega)).mp hmore)
        omega
      · rw [length_nil]
        omega
    · exact ⟨le_refl 1, Nat.one_le_two_pow, hpos⟩

/-! ## 5. The results -/

/-- A root that is not zero comes from a walk without a failure. -/
theorem extractMatches_eq (hnonzero : (t.extractMatches cr []).1 ≠ 0) :
    t.nTransactions ≠ 0 ∧ t.nTransactions ≤ maxBlockBaseSize / 60 ∧
      let r := t.traverseAndExtract cr (treeHeight t.nTransactions) 0 ⟨0, 0, t.fBad, [], []⟩
      r.2.fBad = false ∧ t.extractMatches cr [] = (r.1, r.2.vMatch, r.2.vnIndex) := by
  unfold extractMatches at hnonzero ⊢
  split at hnonzero
  · exact absurd rfl hnonzero
  split at hnonzero
  · exact absurd rfl hnonzero
  split at hnonzero
  · exact absurd rfl hnonzero
  split at hnonzero
  · exact absurd rfl hnonzero
  next hsome hfew hhashes hbits =>
    rw [if_neg hsome, if_neg hfew, if_neg hhashes, if_neg hbits]
    dsimp only at hnonzero ⊢
    split at hnonzero
    · exact absurd rfl hnonzero
    · next hused =>
      rw [if_neg hused]
      obtain ⟨hgood, -⟩ := not_or.mp hused
      exact ⟨hsome, not_lt.mp hfew, Bool.eq_false_iff.mpr hgood, rfl⟩

theorem extractMatches_of_walk {root : Uint256} (hsome : t.nTransactions ≠ 0)
    (hfew : t.nTransactions ≤ maxBlockBaseSize / 60) (hhashes : t.vHash.length ≤ t.nTransactions)
    (hbits : t.vHash.length ≤ t.vBits.length)
    (hwalk : t.traverseAndExtract cr (treeHeight t.nTransactions) 0 ⟨0, 0, t.fBad, [], []⟩ =
      (root, s))
    (hgood : s.fBad = false) (hall : s.nBitsUsed = t.vBits.length)
    (hall' : s.nHashUsed = t.vHash.length) :
    t.extractMatches cr [] = (root, s.vMatch, s.vnIndex) := by
  rw [extractMatches, if_neg hsome, if_neg (not_lt.mpr hfew), if_neg (not_lt.mpr hhashes),
    if_neg (not_lt.mpr hbits), hwalk]
  dsimp only
  rw [hgood, hall, hall']
  simp

theorem lt_of_le_limit (h : n ≤ maxBlockBaseSize / 60) : n < 2 ^ 31 :=
  lt_of_le_of_lt h (by decide)

theorem matched_top {count : Nat} (hle : n ≤ count) :
    matched n vMatch 0 count = (range n).filter (vMatch.getD · false) := by
  have hsplit : range' 0 count = range' 0 n ++ range' n (count - n) := by
    have happend := range'_append_1 (s := 0) (m := n) (n := count - n)
    rw [zero_add, Nat.add_sub_cancel' hle] at happend
    exact happend.symm
  have hrest : matched n vMatch n (count - n) = [] := matched_beyond (le_refl n)
  rw [matched] at hrest ⊢
  rw [hsplit, filter_append, hrest, append_nil, range_eq_range']
  refine filter_congr fun i hi => ?_
  rw [decide_eq_true (zero_add n ▸ (mem_range'_1.mp hi).2), Bool.true_and]

end CPartialMerkleTree

open CPartialMerkleTree

/-- A partial merkle tree that gives the root of as many transactions reports transactions of the
list only, each at its position, in increasing order. -/
theorem extractMatches_sound (cr : Crypto) (vTxid : List Uint256) (t : CPartialMerkleTree)
    (ht : t.nTransactions = vTxid.length)
    (hfree : NoCollision cr (t.hashedPairs cr) (treePairs cr vTxid))
    (hroot : (t.extractMatches cr []).1 = (Merkle.computeMerkleRoot cr vTxid).1)
    (hnonzero : (Merkle.computeMerkleRoot cr vTxid).1 ≠ 0) :
    (t.extractMatches cr []).2.1.length = (t.extractMatches cr []).2.2.length ∧
      (∀ (j i : Nat) (h : Uint256), (t.extractMatches cr []).2.2[j]? = some i →
        (t.extractMatches cr []).2.1[j]? = some h → i < vTxid.length ∧ vTxid[i]? = some h) ∧
      (t.extractMatches cr []).2.2.Pairwise (· < ·) := by
  obtain ⟨hsome, hfew, hgood, heq⟩ := extractMatches_eq (hroot ▸ hnonzero)
  have hpos : 0 < vTxid.length := ht ▸ pos_of_ne_zero hsome
  have hn : vTxid.length < 2 ^ 31 := lt_of_le_limit (ht ▸ hfew)
  rw [heq, ← calcHash_top (length_pos_iff.mp hpos) hn, ht] at hroot
  rw [ht] at hgood
  rw [hashedPairs, ht] at hfree
  obtain ⟨found, hsorted, hrange, hindex, hmatch⟩ := reports_traverse ht hn (le_refl _)
    (by rwa [zero_mul]) hfree hgood hroot
  rw [heq, ht, hindex, hmatch]
  refine ⟨by rw [nil_append, nil_append, length_map], ?_, hsorted⟩
  intro j i h hi hh
  replace hi : found[j]? = some i := hi
  replace hh : (found.map (vTxid.getD · 0))[j]? = some h := hh
  rw [getElem?_map, hi] at hh
  cases hh
  have hlt := (hrange i (mem_of_getElem? hi)).2.2
  refine ⟨hlt, ?_⟩
  dsimp only
  rw [getD_eq_getElem?_getD, getElem?_eq_getElem hlt, Option.getD_some]

open MerkleExample in
theorem extractMatches_sound_three :
    ((build crypto [1, 2, 3] [false, true, false]).extractMatches crypto []).2 = ([2], [1]) ∧
      ((build crypto [1, 2, 3] [false, true, false]).extractMatches crypto []).2.2.Pairwise
        (· < ·) :=
  ⟨by decide +kernel, (extractMatches_sound crypto [1, 2, 3] _ rfl (by decide +kernel)
    (by decide +kernel) (by decide +kernel)).2.2⟩

/-- The tree that is built for different transactions gives their root and reports the matched
ones, each at its position, in increasing order. -/
theorem extractMatches_build (cr : Crypto) (vTxid : List Uint256) (vMatch : List Bool)
    (hne : vTxid ≠ []) (hlength : vTxid.length ≤ maxBlockBaseSize / 60) (hnodup : vTxid.Nodup)
    (hfree : NoCollision cr (treePairs cr vTxid) (treePairs cr vTxid)) :
    (build cr vTxid vMatch).extractMatches cr [] =
      ((Merkle.computeMerkleRoot cr vTxid).1,
        ((List.range vTxid.length).filter (vMatch.getD · false)).map (vTxid.getD · 0),
        (List.range vTxid.length).filter (vMatch.getD · false)) := by
  have hpos : 0 < vTxid.length := length_pos_iff.mpr hne
  have hn : vTxid.length < 2 ^ 31 := lt_of_le_limit hlength
  obtain ⟨hle, -, hheight⟩ := treeHeight_spec hpos hn
  have hzero : 0 * 2 ^ treeHeight vTxid.length < vTxid.length := by rwa [zero_mul]
  obtain ⟨hbits, -, hhashes⟩ := length_traverseAndBuild cr vMatch hn hheight hzero
  rw [zero_mul, zero_add] at hhashes
  have hwalk := traverseAndExtract_build (t := build cr vTxid vMatch) (s := ⟨0, 0, false, [], []⟩)
    rfl hn hnodup hfree (le_refl _) hzero (append_nil _).symm (append_nil _).symm
  rw [zero_mul, matched_top hle, calcHash_top hne hn] at hwalk
  exact extractMatches_of_walk (ne_of_gt hpos) hlength hhashes hbits hwalk rfl (zero_add _)
    (zero_add _)

open MerkleExample in
theorem extractMatches_build_three :
    (build crypto [1, 2, 3] [true, false, true]).extractMatches crypto [] =
      ((Merkle.computeMerkleRoot crypto [1, 2, 3]).1, [1, 3], [0, 2]) :=
  extractMatches_build crypto [1, 2, 3] [true, false, true] (by decide) (by decide) (by decide)
    (by decide +kernel)

end RgmNode
