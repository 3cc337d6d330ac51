import ManySorted.Proofs.Stores.Matching
import ManySorted.Proofs.Stores.Sweeping
import ManySorted.Proofs.Terms.Comparison
import ManySorted.Proofs.Terms.Distinct
import ManySorted.Proofs.Terms.Sizes

/-!
The two sizes of a stored term. The one is the number of nodes of the tree, cut off at the largest
size; the other is the number of distinct subterms, and it is not cut off.
-/

namespace ManySorted

namespace Store

/-- The pass through all ids has the tree sizes. -/
theorem exists_treeSizes (s : Store) : ∃ sizes, s.foldAll Fold.size = .ok sizes ∧
    ∀ id < s.size, ∀ n, sizes[id]? = some n ↔ s.treeSize id = .ok n := by
  obtain ⟨sizes, hsizes, -, hiff⟩ := (s.sweeps_foldAll Fold.size).exists_results
    fun id hid => s.exists_fold Fold.total_size hid
  exact ⟨sizes, hsizes, hiff⟩

end Store

namespace Session

variable {s : Session}

/-- From each id of a store a term can be rebuilt, and it is found under this id. -/
theorem Valid.exists_rebuilt (h : s.Valid) {k id : Nat} {st : Store}
    (hst : s.stores[k]? = some st) (hid : id < st.size) :
    ∃ u, ((Workspace.rebuild st id).run s.workspace).1 = .ok u ∧ st.find? u = some id := by
  refine ⟨st.unfold (Store.markFrom s.workspace.label) id hid, ?_, ?_⟩
  · rw [h.rebuild_fst, st.rebuild_eq, Store.atId_of_lt hid]
  · exact Store.find?_unfold_markFrom (h.valid hst) s.workspace.label hid

/-- The size of a term is the number of its nodes, each counted wherever it occurs, cut off once at
the largest size. In whatever order and groups the sizes of arguments are added, or the nodes of the
whole term at once, they come to the same. So do the size of a stored term and the pass through the
store. -/
theorem size_is_cut_off (calls : List Call) {k : Nat} {st : Store}
    (hst : (run {} calls).stores[k]? = some st) :
    (∀ t : Term, t.fold Fold.size = .ok (min t.subterms.length (2 ^ 64 - 1)) ∧
      (∀ n, t.Counts n ↔ n = min t.subterms.length (2 ^ 64 - 1)) ∧
      ∀ n, SumsTo (List.replicate t.subterms.length 1) n ↔ n = min t.subterms.length (2 ^ 64 - 1)) ∧
    (∀ t, (run {} calls).Knows t → ∃ id st' w sizes,
      (Workspace.store st t).run (run {} calls).workspace = ((.ok id, st'), w) ∧
      st'.treeSize id = .ok (min t.subterms.length (2 ^ 64 - 1)) ∧
      st'.foldAll Fold.size = .ok sizes ∧
      sizes[id]? = some (min t.subterms.length (2 ^ 64 - 1))) ∧
    (∀ id < st.size, ∃ u sizes,
      ((Workspace.rebuild st id).run (run {} calls).workspace).1 = .ok u ∧
      st.treeSize id = .ok (min u.subterms.length (2 ^ 64 - 1)) ∧
      st.foldAll Fold.size = .ok sizes ∧
      sizes[id]? = some (min u.subterms.length (2 ^ 64 - 1))) := by
  have hvalid : (run {} calls).Valid := Valid.initial.run calls
  rw [← maxSize_eq]
  refine ⟨fun t => ?_, fun t ht => ?_, fun id hid => ?_⟩
  · have hpos : 0 < t.subterms.length := List.length_pos_of_mem t.mem_subterms_self
    exact ⟨t.fold_size, fun n => Term.counts_iff, fun n => sumsTo_replicate_iff hpos⟩
  · obtain ⟨id, st', w, hrun, hst', hfind⟩ := hvalid.exists_store_of_knows hst ht
    obtain ⟨sizes, hsizes, hiff⟩ := st'.exists_treeSizes
    have hsize := Store.treeSize_of_find? hst' hfind
    exact ⟨id, st', w, sizes, hrun, hsize, hsizes, (hiff id (hst'.find?_lt hfind) _).2 hsize⟩
  · obtain ⟨u, hu, hfind⟩ := hvalid.exists_rebuilt hst hid
    obtain ⟨sizes, hsizes, hiff⟩ := st.exists_treeSizes
    have hsize := Store.treeSize_of_find? (hvalid.valid hst) hfind
    exact ⟨u, sizes, hu, hsize, hsizes, (hiff id hid _).2 hsize⟩

theorem sharing_size : ∃ st t, (run {} sharing).stores[0]? = some st ∧
    (run {} sharing).terms[1]? = some t ∧ ∃ id st' w,
      (Workspace.store st t).run (run {} sharing).workspace = ((.ok id, st'), w) ∧
      st'.treeSize id = .ok 3 := by
  obtain ⟨st, hst⟩ := exists_store_sharing
  have hsum : (run {} (sharing.take 4)).terms[1]? = some (.app ⟨"INT", some "plus", 1⟩
    [.var "x" (some 0), .var "x" (some 0)] (some 1)) := rfl
  have ht := getElem?_terms_run hsum (sharing.drop 4)
  obtain ⟨-, hstore, -⟩ := size_is_cut_off sharing hst
  obtain ⟨id, st', w, -, hrun, hsize, -⟩ := hstore _ fun u l hu _ => (Holds.of_getElem? ht).partOf hu
  exact ⟨st, _, hst, ht, id, st', w, hrun, hsize⟩

/-- The shared size of a stored term is the number of its distinct subterms, whatever else the store
has. There are not more of them than ids up to its own, nor than nodes, and there are as many as nodes
exactly if no subterm is at two positions. (Ids, and how many there are, are machine words.) A leaf
that is doubled `n` times has `n` subterms more, while its size doubles up to the largest. -/
theorem shared_size_counts_distinct (calls : List Call) {k : Nat} {st : Store}
    (hst : (run {} calls).stores[k]? = some st) :
    (∀ id, st.size ≤ id → st.sharedSize id = .error (.indexOutOfRange st.size id)) ∧
    (∀ id < st.size, ∃ u n m,
      ((Workspace.rebuild st id).run (run {} calls).workspace).1 = .ok u ∧
      st.sharedSize id = .ok n ∧ st.treeSize id = .ok m ∧
      n = (u.subterms.eraseDupsBy Term.same).length ∧ n ≤ id + 1 ∧
      n ≤ u.subterms.length ∧ (id < 2 ^ 64 - 1 → n ≤ m) ∧
      (u.subterms.length < 2 ^ 64 → (n = m ↔
        ∀ p q v w, u.at? p = some v → u.at? q = some w → v.same w = true → p = q))) ∧
    (∀ (leaf : Term) c n t, leaf.args = [] → (run {} calls).Knows t →
      t.same (leaf.doubled c n) = true → ∃ id st' w,
        (Workspace.store st t).run (run {} calls).workspace = ((.ok id, st'), w) ∧
        st'.sharedSize id = .ok (n + 1) ∧
        st'.treeSize id = .ok (min (2 ^ (n + 1) - 1) (2 ^ 64 - 1))) := by
  have hvalid : (run {} calls).Valid := Valid.initial.run calls
  refine ⟨fun id hid => Store.sharedSize_of_le hid, fun id hid => ?_, ?_⟩
  · obtain ⟨u, hu, hfind⟩ := hvalid.exists_rebuilt hst hid
    have hshared := Store.sharedSize_of_find? (hvalid.valid hst) hfind
    have htree := Store.treeSize_of_find? (hvalid.valid hst) hfind
    have hid' := Store.sharedSize_le hid hshared
    have hnodes : (u.subterms.eraseDupsBy Term.same).length ≤ u.subterms.length :=
      (eraseDupsBy_sublist Term.same u.subterms).length_le
    refine ⟨u, _, _, hu, hshared, htree, rfl, hid', hnodes, fun hword => ?_, fun hsize => ?_⟩
    · omega
    · rw [← Term.length_distinct_eq_iff, Nat.min_eq_left (Nat.le_sub_one_of_lt hsize)]
  · intro leaf c n t hleaf hknows hsame
    obtain ⟨id, st', w, hrun, hst', hfind⟩ := hvalid.exists_store_of_knows hst hknows
    rw [st'.find?_of_same hsame] at hfind
    refine ⟨id, st', w, hrun, ?_, ?_⟩
    · rw [Store.sharedSize_of_find? hst' hfind, Term.length_distinct_doubled c hleaf]
    · rw [Store.treeSize_of_find? hst' hfind, Term.length_subterms_doubled c hleaf]

/-- A variable that was doubled twice. -/
theorem doubles_shared_size : ∃ st t, (run {} doubles).stores[0]? = some st ∧
    (run {} doubles).terms[2]? = some t ∧ ∃ id st' w,
      (Workspace.store st t).run (run {} doubles).workspace = ((.ok id, st'), w) ∧
      st'.sharedSize id = .ok 3 ∧ st'.treeSize id = .ok 7 := by
  have hempty : (run {} [.newStore]).stores[0]? = some (Store.empty 0) := rfl
  obtain ⟨st, hst, -⟩ := (Valid.initial.run [.newStore]).run_extends hempty doubles.tail
  have ht : (run {} doubles).terms[2]? = some (.app ⟨"INT", some "plus", 1⟩
    [.app ⟨"INT", some "plus", 1⟩ [.var "x" (some 0), .var "x" (some 0)] (some 1),
      .app ⟨"INT", some "plus", 1⟩ [.var "x" (some 0), .var "x" (some 0)] (some 1)] (some 2)) := rfl
  obtain ⟨-, -, hdoubled⟩ := shared_size_counts_distinct doubles hst
  have hsize := hdoubled (.var "x") ⟨"INT", some "plus", 1⟩ 2 _ rfl
    (fun u l hu _ => (Holds.of_getElem? ht).partOf hu) rfl
  exact ⟨st, _, hst, ht, hsize⟩

end Session

end ManySorted
