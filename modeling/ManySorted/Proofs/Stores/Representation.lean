import ManySorted.Proofs.Stores.Preservation

/-!
The representation of stores over whole runs: the two tables of a store stay inverse to each other,
arguments come before their applications, and a store only ever grows at its end.
-/

namespace ManySorted.Session

variable {s : Session}

theorem Effect.extends_ {r : Outcome Nat} {s' : Session} (he : s.Effect r s') {k : Nat} {st : Store}
    (hst : s.stores[k]? = some st) : ∃ st', s'.stores[k]? = some st' ∧ st.Extends st' := by
  obtain ⟨hlt, -⟩ := List.getElem?_eq_some_iff.1 hst
  cases he with
  | missing length i => exact ⟨st, hst, .refl st⟩
  | refused => exact ⟨st, hst, .refl st⟩
  | terms _ hstores _ => exact ⟨st, hstores ▸ hst, .refl st⟩
  | opened place => exact ⟨st, (List.getElem?_append_left hlt).trans hst, .refl st⟩
  | @added i u u' cache id hu hgrows =>
      by_cases hik : i = k
      · subst hik
        rw [hst] at hu
        cases hu
        exact ⟨u', List.getElem?_set_self hlt, hgrows.extends_⟩
      · exact ⟨st, (List.getElem?_set_ne hik).trans hst, .refl st⟩

/-- However many calls are made, a store keeps what it has. -/
theorem Valid.run_extends (h : s.Valid) {k : Nat} {st : Store} (hst : s.stores[k]? = some st)
    (calls : List Call) : ∃ st', (s.run calls).stores[k]? = some st' ∧ st.Extends st' := by
  induction calls generalizing s st with
  | nil => exact ⟨st, hst, .refl st⟩
  | cons c calls ih =>
      obtain ⟨st', hst', hext⟩ := (h.effect c).extends_ hst
      obtain ⟨st'', hst'', hext'⟩ := ih (h.of_effect (h.effect c)) hst'
      exact ⟨st'', hst'', hext.trans hext'⟩

/-- A term that mentions an unknown id is refused, and nothing else changes. -/
theorem step_intern_of_unknownId {k : Nat} {st : Store} (hst : s.stores[k]? = some st)
    {t : StoredTerm} (h : (s.step (.intern k t)).1 = .error .unknownId) :
    (s.step (.intern k t)).2 = s := by
  rw [step_intern hst] at h ⊢
  have hsame : (st.intern t).2 = st := by
    rcases st.intern_cases t with ⟨id, -, he⟩ | ⟨-, hargs, he⟩ | ⟨-, -, he⟩
    · rw [he]
    · rw [he] at h
      cases h
    · rw [he]
  obtain ⟨hlt, rfl⟩ := List.getElem?_eq_some_iff.1 hst
  rw [hsame, List.set_getElem_self]

/-- Two stores and a sum whose arguments are one node. Both store it, and what the first rebuilds from
it the second stores again. -/
def sharing : List Call := [.newStore, .newStore, .var "x", .app ⟨"INT", some "plus", 1⟩ [0, 0],
  .store 0 1, .store 1 1, .rebuild 0 1, .store 1 2, .intern 0 (.app ⟨"INT", none, 0⟩ [7])]

theorem exists_store_sharing : ∃ st, (run {} sharing).stores[0]? = some st := by
  have hst : (run {} [.newStore]).stores[0]? = some (Store.empty 0) := rfl
  obtain ⟨st, hst', -⟩ := (Valid.initial.run [.newStore]).run_extends hst sharing.tail
  exact ⟨st, hst'⟩

/-- Whatever was called before, the tables of a store are inverse to each other, up to the names of
constants, and arguments have smaller ids than their applications. Whatever is called next, the
store keeps its terms at their places; a term with an unknown argument is refused, which leaves
everything as it was, and storing a term is never refused. -/
theorem store_representation (calls : List Call) {k : Nat} {st : Store}
    (hst : (run {} calls).stores[k]? = some st) :
    (∀ (i : Nat) (t : StoredTerm), st.terms[i]? = some t → st.idOf? t = some i) ∧
    (∀ (i : Nat) (t : StoredTerm), st.idOf? t = some i →
      ∃ u, st.terms[i]? = some u ∧ u.fingerprint = t.fingerprint) ∧
    (∀ (i j : Nat) (t u : StoredTerm), st.terms[i]? = some t → st.terms[j]? = some u →
      t.fingerprint = u.fingerprint → i = j) ∧
    (∀ (i : Nat) (t : StoredTerm), st.terms[i]? = some t → ∀ a ∈ t.args, a < i) ∧
    (∀ next : List Call, ∃ st', ((run {} calls).run next).stores[k]? = some st' ∧
      ∀ (i : Nat) (t : StoredTerm), st.terms[i]? = some t → st'.terms[i]? = some t) ∧
    (∀ t : StoredTerm, ((run {} calls).step (.intern k t)).1 = .error .unknownId →
      (∃ a ∈ t.args, st.size ≤ a) ∧ ((run {} calls).step (.intern k t)).2 = run {} calls) ∧
    (∀ (j : Nat) (t : Term), (run {} calls).terms[j]? = some t →
      ∃ id, ((run {} calls).step (.store k j)).1 = .ok id) := by
  have hvalid : (run {} calls).Valid := Valid.initial.run calls
  refine ⟨fun i t ht => ?_, fun i t hi => ?_, fun i j t u ht hu htu => ?_, fun i t ht a ha => ?_,
    fun next => ?_, fun t hrefused => ⟨?_, ?_⟩, fun j t ht => ?_⟩
  · exact (hvalid.valid hst).id_of_term ht
  · exact (hvalid.valid hst).term_of_id hi
  · exact (hvalid.valid hst).id_unique ht hu htu
  · obtain ⟨hlt, rfl⟩ := Array.getElem?_eq_some_iff.1 ht
    exact st.args_lt i hlt a ha
  · obtain ⟨st', hst', hext⟩ := hvalid.run_extends hst next
    exact ⟨st', hst', fun i t => hext.terms⟩
  · rw [step_intern hst] at hrefused
    exact (Store.intern_eq_unknownId_iff (hvalid.valid hst)).1 hrefused
  · exact step_intern_of_unknownId hst hrefused
  · obtain ⟨id, st', cache, hstep, -⟩ := hvalid.exists_store hst ht
    exact ⟨id, by rw [hstep]⟩

theorem sharing_representation : ∃ st, (run {} sharing).stores[0]? = some st ∧
    ∀ (i : Nat) (t : StoredTerm), st.terms[i]? = some t → st.idOf? t = some i := by
  obtain ⟨st, hst⟩ := exists_store_sharing
  obtain ⟨hid, -⟩ := store_representation sharing hst
  exact ⟨st, hst, hid⟩

end ManySorted.Session
