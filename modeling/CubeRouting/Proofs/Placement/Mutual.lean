/-
  Places are mutual.

  A place is computed from the node's side: it is the node that is stepped and
  the peer that is compared.  By coordinates the two are next to each other,
  and that has no side.

  * `isNeighborAt_comm`: either is in the neighboring hypercube of the other, at
    the same levels;
  * `Adjacency.compute_swap`, `Cells.compute_swap`: the place and the cells of
    the node as the peer sees them;
  * `Adjacency.compute_mutual`: both find the same level in RT1 and the same
    cell in RT2.
-/
import CubeRouting.Proofs.Placement.Cells
import CubeRouting.Proofs.Torus.Neighbors

namespace CubeRouting

/-! ## Differences and shared digits -/

namespace Identifier

variable {x y : Identifier}

theorem xor_comm (hs : x.shape = y.shape) : x.xor y = y.xor x := by
  obtain ⟨z, hz, hshape, hbits⟩ := exists_xor hs
  obtain ⟨z', hz', hshape', hbits'⟩ := exists_xor hs.symm
  suffices hsame : z = z' by rw [hz, hz', hsame]
  refine ext_bits (hshape.trans (hs.trans hshape'.symm)) fun d hd c hc => ?_
  rw [digits, hshape] at hd
  rw [dimensions, hshape] at hc
  rw [hbits d hd c hc, hbits' d (by rwa [digits, ← hs]) c (by rwa [dimensions, ← hs]),
    Bool.xor_comm]

theorem commonPrefix_comm (hs : x.shape = y.shape) : x.commonPrefix y = y.commonPrefix x :=
  commonPrefix_congr hs hs.symm (congrArg Shape.digits hs)
    fun _ _ => ⟨SharesPrefix.symm, SharesPrefix.symm⟩

end Identifier

open Identifier

variable {x y : Identifier} {c l : Nat}

/-! ## Neighbors -/

/-- **Neighbors are mutual**: if stepping the node in one direction leads to the
    hypercube of the peer, stepping the peer in the other leads back. -/
theorem isNeighborAt_comm (hs : x.shape = y.shape) (hc : c < x.dimensions) (hl : l < x.digits) :
    IsNeighborAt x y c l ↔ IsNeighborAt y x c l := by
  have hc' : c < y.dimensions := hc.trans_eq (congrArg Shape.dimensions hs)
  have hl' : l < y.digits := hl.trans_eq (congrArg Shape.digits hs)
  rw [isNeighborAt_iff hs hc hl, isNeighborAt_iff hs.symm hc' hl',
    show y.digits = x.digits from congrArg Shape.digits hs.symm]
  exact ⟨IsNextTo.symm hs, IsNextTo.symm hs.symm⟩

/-- **The search for a level is mutual.** -/
theorem Rt2Scan.matchingLevel_comm {scan : Rt2Scan} (hs : x.shape = y.shape)
    (hc : scan.dimension < x.dimensions) (hmax : scan.maxLevel < x.digits) (bound : Nat) :
    ∃ r, scan.matchingLevel x y bound = .ok r ∧ scan.matchingLevel y x bound = .ok r := by
  classical
  have hlevel : ∀ l ∈ scan.levelsBelow bound, l < x.digits := by
    intro l hl
    rw [levelsBelow, List.mem_range'_1] at hl
    omega
  refine ⟨_, findM?_ok fun l hl => matchesAt_ok hs hc (hlevel l hl), findM?_ok fun l hl => ?_⟩
  have hl := hlevel l hl
  rw [matchesAt_ok hs.symm (hc.trans_eq (congrArg Shape.dimensions hs))
    (hl.trans_eq (congrArg Shape.digits hs)), decide_eq_decide.2 (isNeighborAt_comm hs hc hl)]

/-! ## Places -/

namespace Adjacency

/-- **The place of the node as the peer sees it** differs in the RT1 column
    alone, which is a digit of the other. -/
theorem compute_swap {a : Adjacency} (h : compute x y = .ok a) :
    ∃ column, compute y x = .ok { a with rt1Column := column } := by
  obtain ⟨hs, -, hD, hdesc⟩ := describes_of_compute h
  obtain ⟨difference, hdiff, hshape, -⟩ := exists_xor hs
  have hk := hdesc.shared
  have hlt := hdesc.shared_lt
  have hdig : difference.digits = x.digits := congrArg Shape.digits hshape
  have hdig' : y.digits = x.digits := congrArg Shape.digits hs.symm
  have hcolumn := digitNat_ok x hD hlt
  rw [compute, hdiff, hk, ok_bind, ok_bind] at h
  rw [compute, xor_comm hs.symm, commonPrefix_comm hs.symm, hdiff, hk, ok_bind, ok_bind]
  simp only [digitOnes, checkIndex, hdig, hdig', hlt, Nat.not_le.2 hlt, hdesc.rt1Column, hcolumn,
    ok_bind, if_true, if_false] at h ⊢
  exact ⟨x.digitWord a.shared, congrArg
    (fun b : Adjacency => (Except.ok { b with rt1Column := x.digitWord a.shared } :
      Except IdentifierError Adjacency)) (Except.ok.inj h)⟩

end Adjacency

/-- **The cells of the node as the peer sees them** differ in the RT1 column
    alone. -/
theorem Cells.compute_swap {cells : Cells} (h : compute x y = .ok cells) :
    ∃ column, compute y x = .ok { cells with rt1 := ⟨cells.rt1.level, column⟩ } := by
  obtain ⟨hs, hne, hD, -⟩ := describes_of_compute h
  obtain ⟨a, ha, hdesc⟩ := Adjacency.exists_compute hs hne hD
  obtain ⟨column, hb⟩ := Adjacency.compute_swap ha
  rw [compute, ha, ok_bind] at h
  rw [compute, hb, ok_bind]
  cases hrt2 : a.rt2 with
  | none =>
    rw [hrt2] at h
    cases h
    exact ⟨column, rfl⟩
  | some scan =>
    have hS := hdesc.scans scan hrt2
    have hmax : scan.maxLevel < x.digits := by
      have := hdesc.shared_lt
      rw [hS.maxLevel]
      omega
    obtain ⟨r, hr, hr'⟩ := scan.matchingLevel_comm hs hS.dimension.1 hmax (scan.maxLevel + 1)
    obtain ⟨below, hbelow, hbelow'⟩ := scan.matchingLevel_comm hs hS.dimension.1 hmax a.rt1Level
    simp only [hrt2, rt2At, hr, hbelow, ok_bind] at h
    simp only [rt2At, hr', hbelow', ok_bind]
    cases h
    exact ⟨column, rfl⟩

/-- **Places are mutual**: two different identifiers of one shape and fewer than
    64 dimensions see each other after the same number of shared digits, at the
    same level of RT1 and with the same scan, which finds the same levels from
    either side.  So each has the other at the same level of RT1 and in the same
    cell of RT2. -/
theorem Adjacency.compute_mutual (hs : x.shape = y.shape) (hne : x ≠ y) (hD : x.dimensions ≤ 63) :
    ∃ a b, compute x y = .ok a ∧ compute y x = .ok b ∧
      (b.shared = a.shared ∧ b.rt1Level = a.rt1Level ∧ b.sibling = a.sibling ∧ b.rt2 = a.rt2) ∧
      (∀ scan, a.rt2 = some scan → ∀ bound, ∃ r,
        scan.matchingLevel x y bound = .ok r ∧ scan.matchingLevel y x bound = .ok r) ∧
      ∃ cells cells', Cells.compute x y = .ok cells ∧ Cells.compute y x = .ok cells' ∧
        cells'.rt1.level = cells.rt1.level ∧ cells'.sibling = cells.sibling ∧
        cells'.rt2 = cells.rt2 ∧ cells'.rt2Below = cells.rt2Below := by
  have hD' : x.dimensions < wordBits := Nat.lt_succ_of_le hD
  obtain ⟨a, ha, hdesc⟩ := exists_compute hs hne hD'
  obtain ⟨column, hb⟩ := compute_swap ha
  obtain ⟨cells, hcells, -⟩ := Cells.exists_compute hs hne hD'
  obtain ⟨column', hcells'⟩ := Cells.compute_swap hcells
  refine ⟨a, _, ha, hb, ⟨rfl, rfl, rfl, rfl⟩, fun scan hscan bound => ?_,
    cells, _, hcells, hcells', rfl, rfl, rfl, rfl⟩
  have hS := hdesc.scans scan hscan
  have hlt := hdesc.shared_lt
  exact scan.matchingLevel_comm hs hS.dimension.1 (by rw [hS.maxLevel]; omega) bound

/-- Two identifiers on either side of the end of a coordinate. -/
theorem compute_mutual_wraparound : ∃ (x y : Identifier) (a b : Adjacency) (scan : Rt2Scan),
    x.shape = y.shape ∧ x ≠ y ∧ x.dimensions ≤ 63 ∧
    Adjacency.compute x y = .ok a ∧ Adjacency.compute y x = .ok b ∧ b.rt1Column ≠ a.rt1Column ∧
    b.rt1Level = a.rt1Level ∧ a.rt2 = some scan ∧ b.rt2 = some scan ∧
    scan.matchingLevel x y 4 = .ok (some 1) ∧ scan.matchingLevel y x 4 = .ok (some 1) := by
  let x : Identifier := .ofFn (.mk 2 4) (· == 6)
  let y : Identifier := .ofFn (.mk 2 4) (· % 2 == 0)
  have hne : x ≠ y := by decide +kernel
  have ha : Adjacency.compute x y = .ok ⟨0, 3, 1, true, some ⟨0, 0, 3⟩⟩ := by decide +kernel
  have hlevel : Rt2Scan.matchingLevel ⟨0, 0, 3⟩ x y 4 = .ok (some 1) := by decide +kernel
  obtain ⟨a', b, ha', hb, ⟨-, hrt1, -, hrt2⟩, hlevels, -⟩ :=
    Adjacency.compute_mutual (x := x) (y := y) rfl hne (by decide)
  obtain rfl : a' = _ := Except.ok.inj (ha'.symm.trans ha)
  obtain ⟨r, hr, hr'⟩ := hlevels _ rfl 4
  have hcolumn : b.rt1Column = 0 := by
    have hzero : Adjacency.compute y x = .ok ⟨0, 3, 0, true, some ⟨0, 0, 3⟩⟩ := by decide +kernel
    rw [Except.ok.inj (hb.symm.trans hzero)]
  refine ⟨x, y, _, b, _, rfl, hne, by decide, ha, hb, ?_, hrt1, rfl, hrt2, hlevel, ?_⟩
  · rw [hcolumn]
    decide
  · rw [hr', ← hr, hlevel]

end CubeRouting
