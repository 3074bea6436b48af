/-
  When the secure policy draws its masks.

  A `Visit` is a candidate that comes to a slot of a table, and the log of the
  visits notes what the policy asked of its mask.  The admissions are counted
  in windows of one length.

  * `Identifier.random_eq`: the bits of a mask are those of consecutive words;
  * `MaskState.after_eq`: a full slot consults the mask, and what is admitted is
    counted;
  * `MaskState.Holds.afterAll`: there is a mask in use if and only if a slot was
    ranked in the current window;
  * `Policy.secure_schedule`: the policy draws one mask for each window with a
    ranking, from consecutive words, and takes no other words.
-/
import CubeRouting.Proofs.Policy.Distance
import CubeRouting.Proofs.Policy.Faults
import Mathlib.Algebra.Order.Floor.Div

namespace CubeRouting

/-! ## Masks -/

/-- Word `k` of those that come next in a stream. -/
def WordStream.next (stream : WordStream) (k : Nat) : UInt64 := stream.word (stream.position + k)

/-- A stream after some more words. -/
def WordStream.skip (stream : WordStream) (k : Nat) : WordStream :=
  { stream with position := stream.position + k }

/-- The number of words that the bits of an identifier fill. -/
def Shape.blockLength (s : Shape) : Nat := s.bitCount ⌈/⌉ 64

theorem Shape.wordCount_eq (s : Shape) : s.wordCount = s.blockLength :=
  (Nat.ceilDiv_eq_add_pred_div ..).symm

theorem Shape.blockLength_pos (s : Shape) : 0 < s.blockLength := by
  have hbits : 0 < s.bitCount := Nat.mul_pos s.digits_pos s.dimensions_pos
  rw [blockLength, Nat.ceilDiv_eq_add_pred_div]
  omega

/-- Each bit has its word in the block. -/
theorem Shape.div_lt_blockLength (s : Shape) {i : Nat} (hi : i < s.bitCount) :
    i / 64 < s.blockLength := by
  rw [blockLength, Nat.ceilDiv_eq_add_pred_div]
  omega

theorem UInt64.shiftRight_and_one (word : UInt64) {k : Nat} (hk : k < 64) :
    ((word >>> UInt64.ofNat k) &&& 1 == 1) = word.toNat.testBit k := by
  have hmod : k % 2 ^ 64 % 64 = k := by omega
  rw [Bool.eq_iff_iff, beq_iff_eq, ← UInt64.toNat_inj, UInt64.toNat_and, UInt64.toNat_shiftRight,
    UInt64.toNat_ofNat', hmod, Nat.testBit_eq_decide_div_mod_eq, decide_eq_true_iff,
    ← Nat.shiftRight_eq_div_pow]
  exact (Nat.and_one_is_mod _).congr_left

namespace Identifier

/-- Bit `i` of an identifier is bit `i % 64` of word `i / 64`. -/
def MadeOf (x : Identifier) (word : Nat → UInt64) : Prop :=
  ∀ i (h : i < x.bits.size), x.bits[i] = (word (i / 64)).toNat.testBit (i % 64)

theorem ofFn_congr {s : Shape} {f g : Nat → Bool} (h : ∀ i < s.bitCount, f i = g i) :
    ofFn s f = ofFn s g := by
  simp only [ofFn, mk.injEq, true_and]
  congr 1
  funext i
  exact h i i.2

end Identifier

/-- Mask `j` of a stream: its bits are those of the words in block `j`. -/
def WordStream.mask (stream : WordStream) (shape : Shape) (j : Nat) : Identifier :=
  .ofFn shape fun i =>
    (stream.next (j * shape.blockLength + i / 64)).toNat.testBit (i % 64)

theorem WordStream.madeOf_mask (stream : WordStream) (shape : Shape) (j : Nat) :
    (stream.mask shape j).MadeOf fun i => stream.next (j * shape.blockLength + i) := by
  intro i hi
  simp only [mask, Identifier.ofFn, Array.getElem_ofFn]

/-- **A random identifier is the next mask**: its bits are taken from the words
    one by one. -/
theorem Identifier.random_eq (shape : Shape) (stream : WordStream) :
    random shape stream = (stream.mask shape 0, stream.skip shape.blockLength) := by
  have hwords : ofWords shape (stream.take shape.wordCount).1 = stream.mask shape 0 := by
    refine ofFn_congr fun i hi => ?_
    have hlt : i / wordBits < shape.wordCount := by
      rw [shape.wordCount_eq]
      exact shape.div_lt_blockLength hi
    have hword : (stream.take shape.wordCount).1.getD (i / wordBits) 0 =
        stream.next (0 * shape.blockLength + i / 64) := by
      rw [WordStream.take, Array.getD_eq_getD_getElem?, Array.getElem?_ofFn, dif_pos hlt,
        Nat.zero_mul, Nat.zero_add]
      rfl
    rw [hword]
    exact UInt64.shiftRight_and_one _ (Nat.mod_lt i (by decide))
  simp only [random, hwords, ← shape.wordCount_eq]
  rfl

/-! ## Visits -/

/-- A candidate that comes to a slot of a table. -/
structure Visit where
  table : SubTable
  candidate : Candidate
  index : SlotIndex

namespace Visit

/-- The offer of the candidate. -/
def offer (v : Visit) : Offer := v.table.offerOf v.candidate v.index

/-- What comes of a move. -/
def outcome (v : Visit) (move : Move) : Admission := (v.table.carryOut ⟨move, v.offer.entry⟩).2

/-- The shape of the node that the candidate comes to. -/
def shape (v : Visit) : Shape := v.candidate.self.shape

end Visit

/-- A policy after visits one after the other, and what came of them. -/
def Policy.serve (p : Policy) : List Visit → Policy × List Admission
  | [] => (p, [])
  | v :: vs =>
    let (_, p, answer) := v.table.offer p v.candidate v.index
    let (p, answers) := p.serve vs
    (p, answer :: answers)

/-- An offer to the secure policy is its move carried out. -/
theorem SubTable.offer_secure (t : SubTable) (metric : Metric) (interval : Nat) (s : MaskState)
    (candidate : Candidate) (i : SlotIndex) :
    let o := t.offerOf candidate i
    let r := o.secureMove metric interval s
    t.offer (.secure metric interval s) candidate i =
      ((t.carryOut ⟨r.1, o.entry⟩).1, .secure metric interval r.2, (t.carryOut ⟨r.1, o.entry⟩).2) :=
  rfl

/-- The move in a full slot whose members are ranked under a mask. -/
def Offer.maskedMove (o : Offer) (m : Metric) (mask : Identifier) : Move :=
  match o.maskedVictim? m mask with
  | some i => if o.stored then .decline else .replace i i
  | none => .decline

/-- A victim is a member. -/
theorem Offer.lt_length_of_maskedVictim? {o : Offer} {m : Metric} {mask : Identifier} {i : Nat}
    (h : o.maskedVictim? m mask = some i) : i < o.members.length := by
  rw [maskedVictim?] at h
  split at h
  · cases h
  · rename_i own scores hscores
    rw [maskedDistances] at hscores
    obtain ⟨_, -, hscores⟩ := bind_eq_ok hscores
    obtain ⟨_, hmapM, hscores⟩ := bind_eq_ok hscores
    cases hscores
    split at h
    · rename_i j worst hworst
      split at h <;> cases h
      rw [(forall₂_of_mapM_ok hmapM).length_eq]
      exact (List.getElem?_eq_some_iff.1 (getElem?_champion hworst)).1
    · cases h

/-- A move in a full slot takes out a member, or nothing happens. -/
theorem Offer.maskedMove_cases (o : Offer) (m : Metric) (mask : Identifier) :
    o.maskedMove m mask = .decline ∨
      ∃ i < o.members.length, o.stored = false ∧ o.maskedMove m mask = .replace i i := by
  rw [maskedMove]
  cases hvictim : o.maskedVictim? m mask with
  | none => exact Or.inl rfl
  | some i =>
    cases hstored : o.stored with
    | true => exact Or.inl rfl
    | false => exact Or.inr ⟨i, lt_length_of_maskedVictim? hvictim, rfl, rfl⟩

namespace Visit

variable (v : Visit)

theorem outcome_insert (h : v.offer.isFull = false) (hnew : v.offer.stored = false) (k : Nat) :
    v.outcome (.insert k) = .admitted := by
  have hroom : (v.table.slot v.index).length < v.table.capacity :=
    Nat.lt_of_not_le (of_decide_eq_false h)
  have haccepts : v.table.accepts v.offer.entry = true := SubTable.accepts_iff.2 ⟨hroom, hnew⟩
  simp only [outcome, SubTable.carryOut, haccepts, if_true]

theorem isAdmitted_outcome_replace (hnew : v.offer.stored = false) {i : Nat}
    (hi : i < v.offer.members.length) (k : Nat) : (v.outcome (.replace i k)).isAdmitted := by
  have hmember : (v.table.slot v.offer.entry.slot.index)[i]? = some (v.offer.members[i]) :=
    List.getElem?_eq_getElem hi
  rw [outcome, SubTable.carryOut_replace hmember hnew]
  rfl

end Visit

namespace MaskState

/-! ## One visit -/

section
variable (metric : Metric) (interval : Nat) (s : MaskState) (v : Visit)

/-- The state after a visit. -/
def after : MaskState := (v.offer.secureMove metric interval s).2

/-- What came of a visit. -/
def answer : Admission := v.outcome (v.offer.secureMove metric interval s).1

/-- The state once a full slot consulted the mask. -/
def consulted : MaskState := if v.offer.isFull then (s.current v.shape).2 else s

theorem secureMove_of_full {o : Offer} (h : o.isFull = true) :
    o.secureMove metric interval s =
      (o.maskedMove metric (s.current o.candidate.self.shape).1,
        if o.maskedMove metric (s.current o.candidate.self.shape).1 = .decline then
          (s.current o.candidate.self.shape).2
        else (s.current o.candidate.self.shape).2.recordAdmission interval) := by
  unfold Offer.secureMove Offer.maskedMove
  rw [h]
  obtain ⟨mask, s'⟩ := s.current o.candidate.self.shape
  dsimp only
  cases o.maskedVictim? metric mask with
  | none => rfl
  | some i => cases o.stored <;> rfl

/-- **What a visit does to the state**: a full slot consults the mask, and an
    admission is counted. -/
theorem after_eq : s.after metric interval v =
    if (s.answer metric interval v).isAdmitted then (s.consulted v).recordAdmission interval
    else s.consulted v := by
  unfold after answer consulted
  cases hfull : v.offer.isFull with
  | false =>
    rw [Offer.secureMove, hfull]
    cases hstored : v.offer.stored with
    | true => rfl
    | false =>
      simp only [Bool.not_false, if_true, Bool.false_eq_true, if_false]
      rw [v.outcome_insert hfull hstored]
      rfl
  | true =>
    rw [secureMove_of_full metric interval s hfull]
    rcases v.offer.maskedMove_cases metric (s.current v.offer.candidate.self.shape).1 with
      hmove | ⟨i, hi, hstored, hmove⟩
    · rw [hmove]
      rfl
    · rw [hmove, if_pos (v.isAdmitted_outcome_replace hstored hi i)]
      rfl

end

end MaskState

/-! ## The log -/

/-- What the policy asked of its mask at a visit. -/
structure MaskUse where
  visit : Visit
  /-- The number of admissions before it. -/
  admissions : Nat
  /-- The mask under which the slot was ranked, if it was. -/
  mask : Option Identifier
  /-- The number of words that were taken from the stream. -/
  taken : Nat
  answer : Admission

namespace MaskUse

/-- The window of the visit. -/
def window (interval : Nat) (u : MaskUse) : Nat := u.admissions / interval

/-- The slot was ranked if it was full, and the mask decided what came of the
    visit. -/
def Faithful (metric : Metric) (u : MaskUse) : Prop :=
  match u.mask with
  | none => u.visit.offer.isFull = false
  | some mask => u.visit.offer.isFull = true ∧
      u.answer = u.visit.outcome (u.visit.offer.maskedMove metric mask)

/-- The masks for which words were taken. -/
def drawn (log : List MaskUse) : List Identifier :=
  log.filterMap fun u => if u.taken = 0 then none else u.mask

/-- The windows in which a slot was ranked. -/
def rankedWindows (interval : Nat) (log : List MaskUse) : Finset Nat :=
  ((log.filter (·.mask.isSome)).map (·.window interval)).toFinset

variable {interval : Nat} {log : List MaskUse} {u : MaskUse}

theorem drawn_concat_of_taken (hu : u.taken ≠ 0) {mask : Identifier} (hmask : u.mask = some mask) :
    drawn (log ++ [u]) = drawn log ++ [mask] := by
  simp [drawn, hu, hmask]

theorem drawn_concat_of_not_taken (hu : u.taken = 0) : drawn (log ++ [u]) = drawn log := by
  simp [drawn, hu]

theorem mem_rankedWindows {w : Nat} :
    w ∈ rankedWindows interval log ↔ ∃ u ∈ log, u.mask.isSome ∧ u.window interval = w := by
  simp [rankedWindows, and_assoc]

theorem rankedWindows_concat_of_some (hu : u.mask.isSome) :
    rankedWindows interval (log ++ [u]) =
      insert (u.window interval) (rankedWindows interval log) := by
  ext w
  simp [rankedWindows, hu]

theorem rankedWindows_concat_of_none (hu : u.mask = none) :
    rankedWindows interval (log ++ [u]) = rankedWindows interval log := by
  simp [rankedWindows, hu]

end MaskUse

open MaskUse in
/-- How masks are drawn from a stream in the course of a log. -/
structure MaskSchedule (shape : Shape) (interval : Nat) (stream : WordStream)
    (log : List MaskUse) : Prop where
  /-- Rankings in one window are made under one mask. -/
  one_mask : ∀ u ∈ log, ∀ u' ∈ log, u.mask.isSome → u'.mask.isSome →
    u.window interval = u'.window interval → u.mask = u'.mask
  /-- Mask `j` is made of block `j` of the words that come next. -/
  blocks : ∀ j (h : j < (drawn log).length), (drawn log)[j].shape = shape ∧
    (drawn log)[j].MadeOf fun i => stream.next (j * shape.blockLength + i)
  /-- There are as many as windows with a ranking. -/
  card : (drawn log).length = (rankedWindows interval log).card
  /-- Only the first ranking in a window takes words. -/
  lazy : ∀ before u, before ++ [u] <+: log → u.taken =
    if u.mask.isSome ∧ u.window interval ∉ rankedWindows interval before then shape.blockLength
    else 0

namespace MaskState

section
variable (metric : Metric) (interval : Nat)

/-- What a visit asks of the mask. -/
def use (s : MaskState) (v : Visit) : MaskUse where
  visit := v
  admissions := s.admissions
  mask := if v.offer.isFull then some (s.current v.shape).1 else none
  taken := (s.after metric interval v).stream.position - s.stream.position
  answer := s.answer metric interval v

/-- The state after visits. -/
def afterAll (s : MaskState) : List Visit → MaskState
  | [] => s
  | v :: vs => (s.after metric interval v).afterAll vs

/-- The log of visits. -/
def log (s : MaskState) : List Visit → List MaskUse
  | [] => []
  | v :: vs => s.use metric interval v :: (s.after metric interval v).log vs

end

variable {metric : Metric} {shape : Shape} {interval : Nat} {s : MaskState} {v : Visit}
  {vs : List Visit} {log : List MaskUse} {u : MaskUse}

/-- The secure policy keeps the state, and answers as the log says. -/
theorem serve_secure (s : MaskState) (vs : List Visit) :
    (Policy.secure metric interval s).serve vs =
      (.secure metric interval (s.afterAll metric interval vs),
        (s.log metric interval vs).map (·.answer)) := by
  induction vs generalizing s with
  | nil => rfl
  | cons v vs ih =>
    rw [Policy.serve, SubTable.offer_secure]
    dsimp only
    rw [ih]
    rfl

theorem visits_log (s : MaskState) (vs : List Visit) :
    (s.log metric interval vs).map (·.visit) = vs := by
  induction vs generalizing s with
  | nil => rfl
  | cons v vs ih => exact congrArg (v :: ·) (ih _)

theorem faithful_use (s : MaskState) (v : Visit) : (s.use metric interval v).Faithful metric := by
  unfold MaskUse.Faithful use
  cases hfull : v.offer.isFull with
  | false => rfl
  | true =>
    refine ⟨rfl, ?_⟩
    dsimp only
    rw [answer, secureMove_of_full metric interval s hfull]
    rfl

theorem faithful_log (s : MaskState) (vs : List Visit) :
    ∀ u ∈ s.log metric interval vs, u.Faithful metric := by
  induction vs generalizing s with
  | nil => simp [MaskState.log]
  | cons v vs ih => exact List.forall_mem_cons.2 ⟨s.faithful_use v, ih _⟩

/-! ## Admissions -/

@[simp] theorem admissions_recordAdmission :
    (s.recordAdmission interval).admissions = s.admissions + 1 := rfl

theorem admissions_current (s : MaskState) (shape : Shape) :
    (s.current shape).2.admissions = s.admissions := by
  rw [current]
  split
  · split <;> rfl
  · rfl

theorem admissions_after (s : MaskState) (v : Visit) : (s.after metric interval v).admissions =
    s.admissions + if (s.answer metric interval v).isAdmitted then 1 else 0 := by
  have hconsulted : (s.consulted v).admissions = s.admissions := by
    rw [consulted]
    split
    · exact admissions_current s _
    · rfl
  rw [after_eq]
  split
  · rw [admissions_recordAdmission, hconsulted]
  · exact hconsulted

theorem admissions_afterAll (s : MaskState) (vs : List Visit) :
    (s.afterAll metric interval vs).admissions =
      s.admissions + (s.log metric interval vs).countP (·.answer.isAdmitted) := by
  induction vs generalizing s with
  | nil => rfl
  | cons v vs ih =>
    rw [afterAll, ih, admissions_after, MaskState.log, List.countP_cons, Nat.add_assoc,
      Nat.add_comm (List.countP _ _)]
    rfl

/-- The log counts the admissions. -/
theorem admissions_before (s : MaskState) {vs : List Visit} {before : List MaskUse}
    (h : before ++ [u] <+: s.log metric interval vs) :
    u.admissions = s.admissions + before.countP (·.answer.isAdmitted) := by
  induction vs generalizing s before with
  | nil => simp [MaskState.log] at h
  | cons v vs ih =>
    cases before with
    | nil =>
      rw [MaskState.log, List.nil_append, List.cons_prefix_cons] at h
      rw [h.1]
      rfl
    | cons u' before =>
      rw [MaskState.log, List.cons_append, List.cons_prefix_cons] at h
      rw [ih _ h.2, admissions_after, h.1, List.countP_cons, Nat.add_assoc,
        Nat.add_comm (List.countP _ _)]
      rfl

end MaskState

/-! ## One more visit -/

section
open MaskUse
variable {shape : Shape} {interval : Nat} {stream : WordStream} {log : List MaskUse} {u : MaskUse}

theorem WordStream.skip_skip (stream : WordStream) (j k : Nat) :
    (stream.skip j).skip k = stream.skip (j + k) := by
  simp only [skip, Nat.add_assoc]

theorem WordStream.mask_skip (stream : WordStream) (shape : Shape) (i j : Nat) :
    (stream.skip (i * shape.blockLength)).mask shape j = stream.mask shape (i + j) := by
  simp only [mask, next, skip, word, Nat.add_mul, Nat.add_assoc]

theorem prefix_concat_cases {α : Type} {xs ys : List α} {x y : α} (h : xs ++ [x] <+: ys ++ [y]) :
    (xs = ys ∧ x = y) ∨ xs ++ [x] <+: ys := by
  refine (List.prefix_concat_iff.1 h).imp_left fun heq => ?_
  obtain ⟨hxs, hx⟩ := List.append_inj' heq rfl
  exact ⟨hxs, List.singleton_inj.1 hx⟩

/-- A schedule goes on with a ranking that takes a block of words if it is the
    first of its window. -/
theorem MaskSchedule.concat (h : MaskSchedule shape interval stream log)
    (hone : ∀ u' ∈ log, u'.mask.isSome → u.mask.isSome → u'.window interval = u.window interval →
      u'.mask = u.mask)
    (hlazy : u.taken = if u.mask.isSome ∧ u.window interval ∉ rankedWindows interval log then
      shape.blockLength else 0)
    (hblock : u.taken ≠ 0 → u.mask = some (stream.mask shape (drawn log).length)) :
    MaskSchedule shape interval stream (log ++ [u]) where
  one_mask := by
    intro u₁ h₁ u₂ h₂ hsome₁ hsome₂ hwindow
    rw [List.mem_append, List.mem_singleton] at h₁ h₂
    rcases h₁ with h₁ | rfl <;> rcases h₂ with h₂ | rfl
    · exact h.one_mask u₁ h₁ u₂ h₂ hsome₁ hsome₂ hwindow
    · exact hone u₁ h₁ hsome₁ hsome₂ hwindow
    · exact (hone u₂ h₂ hsome₂ hsome₁ hwindow.symm).symm
    · rfl
  blocks := by
    by_cases htaken : u.taken = 0
    · rw [drawn_concat_of_not_taken htaken]
      exact h.blocks
    · rw [drawn_concat_of_taken htaken (hblock htaken)]
      intro j hj
      rcases Nat.lt_or_eq_of_le (Nat.le_of_lt_succ (by simpa using hj)) with hlt | rfl
      · rw [List.getElem_append_left hlt]
        exact h.blocks j hlt
      · rw [List.getElem_concat_length rfl]
        exact ⟨rfl, stream.madeOf_mask shape _⟩
  card := by
    split at hlazy
    · rename_i hfirst
      have htaken : u.taken ≠ 0 := hlazy ▸ shape.blockLength_pos.ne'
      rw [drawn_concat_of_taken htaken (hblock htaken), rankedWindows_concat_of_some hfirst.1,
        Finset.card_insert_of_notMem hfirst.2, List.length_append, h.card]
      rfl
    · rename_i hnot
      rw [drawn_concat_of_not_taken hlazy, h.card]
      cases hmask : u.mask with
      | none => rw [rankedWindows_concat_of_none hmask]
      | some mask =>
        have hsome : u.mask.isSome := by rw [hmask]; rfl
        rw [rankedWindows_concat_of_some hsome, Finset.insert_eq_of_mem]
        by_contra hnew
        exact hnot ⟨hsome, hnew⟩
  lazy := by
    intro before u' hbefore
    rcases prefix_concat_cases hbefore with ⟨rfl, rfl⟩ | hbefore
    · exact hlazy
    · exact h.lazy before u' hbefore

end

namespace MaskState

open MaskUse

variable {metric : Metric} {shape : Shape} {interval : Nat} {stream : WordStream} {s s' : MaskState}
  {v : Visit} {vs : List Visit} {log : List MaskUse} {u : MaskUse}

/-! ## The mask of the current window -/

/-- What the state is after a log. -/
structure Holds (shape : Shape) (interval : Nat) (stream : WordStream) (log : List MaskUse)
    (s : MaskState) : Prop extends MaskSchedule shape interval stream log where
  behind : ∀ u ∈ log, u.admissions ≤ s.admissions
  /-- The mask in use is that of the rankings in the current window. -/
  mask_iff : ∀ mask, s.mask = some mask ↔
    ∃ u ∈ log, u.mask = some mask ∧ u.window interval = s.admissions / interval
  shape_mask : ∀ mask, s.mask = some mask → mask.shape = shape
  stream_eq : s.stream = stream.skip ((drawn log).length * shape.blockLength)

/-- Before the first visit. -/
theorem holds_start (shape : Shape) (interval : Nat) (stream : WordStream) :
    Holds shape interval stream [] (start stream) where
  one_mask := by simp
  blocks := by simp [drawn]
  card := rfl
  lazy := by simp
  behind := by simp
  mask_iff := by simp [start]
  shape_mask := by simp [start]
  stream_eq := by simp [drawn, start, WordStream.skip]

theorem current_of_some {mask : Identifier} (h : s.mask = some mask) (hshape : mask.shape = shape) :
    s.current shape = (mask, s) := by
  simp only [current, h, hshape, if_true]

theorem current_of_none (h : s.mask = none) (shape : Shape) :
    s.current shape = (s.stream.mask shape 0, { s with
      stream := s.stream.skip shape.blockLength
      mask := some (s.stream.mask shape 0) }) := by
  simp only [current, h, Identifier.random_eq]

/-- Only the consulted mask takes words. -/
theorem taken_use (s : MaskState) (v : Visit) : (s.use metric interval v).taken =
    (s.consulted v).stream.position - s.stream.position := by
  have hstream : (s.after metric interval v).stream = (s.consulted v).stream := by
    rw [after_eq]
    split <;> rfl
  rw [use, hstream]

namespace Holds

/-- There is no mask in use as long as no slot was ranked in the current
    window. -/
theorem mask_eq_none_iff (h : Holds shape interval stream log s) :
    s.mask = none ↔ s.admissions / interval ∉ rankedWindows interval log := by
  rw [mem_rankedWindows, Option.eq_none_iff_forall_ne_some]
  simp only [ne_eq, h.mask_iff, Option.isSome_iff_exists]
  grind

/-- The log goes on with a visit that draws a mask if it needs one and there is
    none. -/
theorem concat (h : Holds shape interval stream log s) (hu : u.admissions = s.admissions)
    (hs' : s'.admissions = s.admissions)
    (hmask : ∀ mask, s'.mask = some mask ↔ s.mask = some mask ∨ u.mask = some mask)
    (hshape : ∀ mask, u.mask = some mask → mask.shape = shape)
    (htaken : u.taken = if u.mask.isSome ∧ s.mask = none then shape.blockLength else 0)
    (hblock : u.taken ≠ 0 → u.mask = some (s.stream.mask shape 0))
    (hstream : s'.stream = s.stream.skip u.taken) :
    Holds shape interval stream (log ++ [u]) s' := by
  have hwindow : u.window interval = s.admissions / interval := by rw [MaskUse.window, hu]
  have hschedule : MaskSchedule shape interval stream (log ++ [u]) := by
    refine h.toMaskSchedule.concat (fun u' hu' hsome' hsome hsame => ?_) ?_ fun hdraw => ?_
    · obtain ⟨mask', hmask'⟩ := Option.isSome_iff_exists.1 hsome'
      obtain ⟨mask, hmask₀⟩ := Option.isSome_iff_exists.1 hsome
      have hold : s.mask = some mask' := (h.mask_iff mask').2 ⟨u', hu', hmask', hsame.trans hwindow⟩
      have hold' : s'.mask = some mask' := (hmask mask').2 (Or.inl hold)
      rw [hmask', hmask₀, ← hold', (hmask mask).2 (Or.inr hmask₀)]
    · simp only [htaken, hwindow, h.mask_eq_none_iff]
    · rw [hblock hdraw, h.stream_eq, WordStream.mask_skip, Nat.add_zero]
  refine ⟨hschedule, ?_, fun mask => ?_, fun mask hmask' => ?_, ?_⟩
  · intro u' hu'
    rw [hs']
    rcases List.mem_append.1 hu' with hu' | hu'
    · exact h.behind u' hu'
    · rw [List.mem_singleton.1 hu', hu]
  · rw [hmask, h.mask_iff, hs']
    simp [or_and_right, exists_or, hwindow]
  · exact ((hmask mask).1 hmask').elim (h.shape_mask mask) (hshape mask)
  · rw [hstream, h.stream_eq, WordStream.skip_skip]
    by_cases hdraw : u.taken = 0
    · rw [drawn_concat_of_not_taken hdraw, hdraw, Nat.add_zero]
    · have hwords : u.taken = shape.blockLength := by
        split at htaken
        · exact htaken
        · exact absurd htaken hdraw
      rw [drawn_concat_of_taken hdraw (hblock hdraw), List.length_append, List.length_singleton,
        Nat.succ_mul, hwords]

/-- An admission that ends the window drops the mask. -/
theorem recordAdmission (h : Holds shape interval stream log s) :
    Holds shape interval stream log (s.recordAdmission interval) := by
  have hdiv : (s.admissions + 1) / interval =
      s.admissions / interval + if interval ∣ s.admissions + 1 then 1 else 0 := Nat.succ_div
  have hlast : ∀ u ∈ log, u.window interval ≤ s.admissions / interval :=
    fun u hu => Nat.div_le_div_right (h.behind u hu)
  refine ⟨h.toMaskSchedule, fun u hu => (h.behind u hu).trans (Nat.le_succ _), fun mask => ?_,
    fun mask hmask => ?_, h.stream_eq⟩
  · by_cases hend : interval ∣ s.admissions + 1
    · -- every ranking lies in a window before the one that begins
      have hnone : (s.recordAdmission interval).mask = none := if_pos (Nat.mod_eq_zero_of_dvd hend)
      rw [if_pos hend] at hdiv
      rw [hnone, admissions_recordAdmission, hdiv]
      refine iff_of_false (Option.some_ne_none mask).symm ?_
      rintro ⟨u, hu, -, hwindow⟩
      have := hlast u hu
      omega
    · have hmask : (s.recordAdmission interval).mask = s.mask :=
        if_neg fun hmod => hend (Nat.dvd_of_mod_eq_zero hmod)
      rw [if_neg hend, Nat.add_zero] at hdiv
      rw [hmask, admissions_recordAdmission, hdiv]
      exact h.mask_iff mask
  · refine h.shape_mask mask ?_
    rw [MaskState.recordAdmission] at hmask
    dsimp only at hmask
    split at hmask
    · cases hmask
    · exact hmask

/-- The log goes on with a visit to a node of the shape, whose slot consults the
    mask if it is full. -/
theorem consulted (h : Holds shape interval stream log s) (hv : v.shape = shape) :
    Holds shape interval stream (log ++ [s.use metric interval v]) (s.consulted v) := by
  have htaken : (s.use metric interval v).taken =
      (s.consulted v).stream.position - s.stream.position := s.taken_use v
  cases hfull : v.offer.isFull with
  | false =>
    have hmask : (s.use metric interval v).mask = none := if_neg (by simp [hfull])
    have hsame : s.consulted v = s := if_neg (by simp [hfull])
    rw [hsame, Nat.sub_self] at htaken
    rw [hsame]
    exact h.concat rfl rfl (by simp [hmask]) (by simp [hmask]) (by simp [hmask, htaken])
      (absurd htaken) (by rw [htaken]; rfl)
  | true =>
    have hmask : (s.use metric interval v).mask = some (s.current shape).1 := by
      rw [← hv]
      exact if_pos hfull
    have hnext : s.consulted v = (s.current shape).2 := by
      rw [← hv]
      exact if_pos hfull
    rw [hnext] at htaken ⊢
    cases hcurrent : s.mask with
    | none =>
      rw [current_of_none hcurrent] at hmask htaken ⊢
      replace htaken : (s.use metric interval v).taken = shape.blockLength :=
        htaken.trans (Nat.add_sub_cancel_left _ _)
      exact h.concat rfl rfl (by simp [hmask, hcurrent])
        (by simp [hmask, WordStream.mask, Identifier.ofFn])
        (by simp [hmask, htaken, hcurrent]) (fun _ => hmask) (by rw [htaken])
    | some mask =>
      rw [current_of_some hcurrent (h.shape_mask mask hcurrent)] at hmask htaken ⊢
      rw [Nat.sub_self] at htaken
      exact h.concat rfl rfl (by simp [hmask, hcurrent])
        (by simpa [hmask] using h.shape_mask mask hcurrent) (by simp [htaken, hcurrent])
        (absurd htaken) (by rw [htaken]; rfl)

/-- **What the state is after one more visit.** -/
theorem after (h : Holds shape interval stream log s) (hv : v.shape = shape) :
    Holds shape interval stream (log ++ [s.use metric interval v]) (s.after metric interval v) := by
  rw [after_eq]
  split
  · exact (h.consulted hv).recordAdmission
  · exact h.consulted hv

/-- **What the state is after visits.** -/
theorem afterAll (h : Holds shape interval stream log s) (hvs : ∀ v ∈ vs, v.shape = shape) :
    Holds shape interval stream (log ++ s.log metric interval vs)
      (s.afterAll metric interval vs) := by
  induction vs generalizing s log with
  | nil =>
    rw [MaskState.log, List.append_nil]
    exact h
  | cons v vs ih =>
    rw [MaskState.log, MaskState.afterAll, List.append_cons]
    exact ih (h.after (hvs v List.mem_cons_self)) fun v hv => hvs v (List.mem_cons_of_mem _ hv)

end Holds

end MaskState

open MaskUse MaskState in
/-- **When the secure policy draws masks.**  Its visits are those of nodes of
    one shape.  The policy counts the admissions, all rankings in a window of
    admissions are made under one mask, mask `j` is made of block `j` of the
    words, and the masks are as many as the windows with a ranking.  Only the
    first ranking in a window takes words. -/
theorem Policy.secure_schedule (metric : Metric) (refresh : Nat) (stream : WordStream)
    {shape : Shape} {vs : List Visit} (hvs : ∀ v ∈ vs, v.candidate.self.shape = shape) :
    let interval := max refresh 1
    let log := (start stream).log metric interval vs
    let served := (secure metric interval (start stream)).serve vs
    (log.map (·.visit) = vs ∧ log.map (·.answer) = served.2 ∧ ∀ u ∈ log, u.Faithful metric) ∧
    (served.1.admissions = served.2.countP (·.isAdmitted) ∧
      ∀ before u, before ++ [u] <+: log →
        u.admissions = before.countP (·.answer.isAdmitted)) ∧
    MaskSchedule shape interval stream log ∧
    ∃ s, served.1 = secure metric interval s ∧
      s.stream = stream.skip ((drawn log).length * shape.blockLength) := by
  intro interval log served
  have hserved : served = _ := serve_secure (start stream) vs
  have hholds : Holds shape interval stream ([] ++ log) _ :=
    (holds_start shape interval stream).afterAll hvs
  rw [hserved]
  refine ⟨⟨visits_log _ vs, rfl, faithful_log _ vs⟩, ⟨?_, fun before u hbefore => ?_⟩,
    hholds.toMaskSchedule, _, rfl, hholds.stream_eq⟩
  · rw [List.countP_map]
    exact (admissions_afterAll _ vs).trans (Nat.zero_add _)
  · exact (admissions_before _ hbefore).trans (Nat.zero_add _)

open MaskUse MaskState in
/-- Peers come to a slot at level 2.  In the first window of two admissions one
    takes the place of a closer one, since it is closer under the mask, and in
    the second window another mask is in use. -/
theorem secure_schedule_two_windows : ∃ vs : List Visit,
    (∀ v ∈ vs, v.candidate.self.shape = .mk 2 4 ∧ v.index.level = 2) ∧
    ((Policy.secure .manhattan 2 (start (.ofSeed 1))).serve vs).2 =
      [.admitted, .replaced 4, .replaced 164, .declined] ∧
    ((Policy.secure .manhattan 2 (start (.ofSeed 1))).serve vs).1.admissions = 3 ∧
    ∃ mask mask', drawn ((start (.ofSeed 1)).log .manhattan 2 vs) = [mask, mask'] ∧
      mask ≠ mask' ∧ mask.MadeOf (WordStream.ofSeed 1).word ∧
      mask'.MadeOf fun i => (WordStream.ofSeed 1).word (1 + i) := by
  let self : Identifier := .zero (.mk 2 4)
  let candidate (k : Nat) : Candidate :=
    ⟨⟨.ofFn (.mk 2 4) k.testBit, "10.0.0.1:7000", UInt64.ofNat k⟩, self, 0, ⟨0, by decide⟩⟩
  let room : SubTable := .empty .secRt1 4 4 1
  let full (k : Nat) : SubTable := room.insert 0 (room.entryOf (candidate k) ⟨2, 1⟩)
  let vs : List Visit := [⟨room, candidate 4, ⟨2, 1⟩⟩, ⟨full 4, candidate 68, ⟨2, 1⟩⟩,
    ⟨full 164, candidate 132, ⟨2, 1⟩⟩, ⟨full 4, candidate 164, ⟨2, 1⟩⟩]
  have hvs : ∀ v ∈ vs, v.candidate.self.shape = .mk 2 4 ∧ v.index.level = 2 := by decide
  have hanswers : ((Policy.secure .manhattan 2 (start (.ofSeed 1))).serve vs).2 =
      [.admitted, .replaced 4, .replaced 164, .declined] := by decide +kernel
  have hmax : max 2 1 = 2 := rfl
  have hrun := Policy.secure_schedule .manhattan 2 (.ofSeed 1) fun v hv => (hvs v hv).1
  rw [hmax] at hrun
  obtain ⟨-, ⟨hcount, -⟩, hschedule, -⟩ := hrun
  rw [hanswers] at hcount
  have hlength := hschedule.card.trans (by decide +kernel : _ = 2)
  obtain ⟨mask, mask', hdrawn⟩ := List.length_eq_two.1 hlength
  have hblocks := hschedule.blocks
  simp only [hdrawn] at hblocks
  have hword : (Shape.mk 2 4).blockLength = 1 := by decide
  have hmade : mask.MadeOf (WordStream.ofSeed 1).word := by
    simpa [WordStream.next, WordStream.ofSeed] using (hblocks 0 Nat.two_pos).2
  have hmade' : mask'.MadeOf fun i => (WordStream.ofSeed 1).word (1 + i) := by
    simpa [WordStream.next, WordStream.ofSeed, hword] using (hblocks 1 Nat.one_lt_two).2
  refine ⟨vs, hvs, hanswers, hcount, mask, mask', hdrawn, ?_, hmade, hmade'⟩
  rintro rfl
  have hsize : 0 < mask.bits.size := by
    rw [mask.size_bits]
    exact mask.bitCount_pos
  have hbit := (hmade 0 hsize).symm.trans (hmade' 0 hsize)
  revert hbit
  decide +kernel

end CubeRouting
