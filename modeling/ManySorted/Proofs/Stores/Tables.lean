import ManySorted.Store.Add

/-!
The two tables of a store. In a valid store they are inverse to each other, and interning keeps
them so and only adds to them. A term has an id in a store if the store has its contents.
-/

namespace ManySorted

theorem StoredTerm.args_fingerprint (t : StoredTerm) : t.fingerprint.args = t.args := by
  cases t <;> rfl

namespace Store

/-- The tables of a store are inverse to each other. -/
structure Valid (s : Store) : Prop where
  id_of_term : ∀ {id : Nat} {t : StoredTerm}, s.terms[id]? = some t →
    s.ids[t.fingerprint]? = some id
  term_of_id : ∀ {f : Fingerprint} {id : Nat}, s.ids[f]? = some id →
    ∃ t, s.terms[id]? = some t ∧ t.fingerprint = f

/-- A store has everything that another has, at the same places. -/
structure Extends (s s' : Store) : Prop where
  key : s'.key = s.key
  terms : ∀ {id : Nat} {t : StoredTerm}, s.terms[id]? = some t → s'.terms[id]? = some t
  ids : ∀ {f : Fingerprint} {id : Nat}, s.ids[f]? = some id → s'.ids[f]? = some id

variable {s s' s'' : Store} {t : StoredTerm} {id : Nat}

theorem Valid.empty (key : Nat) : (Store.empty key).Valid := by
  constructor
  · intro id t h
    simp [Store.empty] at h
  · intro f id h
    simp [Store.empty] at h

theorem Valid.lt_size (h : s.Valid) {f : Fingerprint} (hid : s.ids[f]? = some id) :
    id < s.size := by
  obtain ⟨t, ht, -⟩ := h.term_of_id hid
  exact (Array.getElem?_eq_some_iff.1 ht).1

theorem Valid.id_unique (h : s.Valid) {i j : Nat} {t u : StoredTerm} (hi : s.terms[i]? = some t)
    (hj : s.terms[j]? = some u) (htu : t.fingerprint = u.fingerprint) : i = j := by
  have hid := h.id_of_term hi
  rw [htu, h.id_of_term hj] at hid
  exact (Option.some.inj hid).symm

theorem Extends.refl (s : Store) : s.Extends s := ⟨rfl, fun h => h, fun h => h⟩

theorem Extends.trans (h : s.Extends s') (h' : s'.Extends s'') : s.Extends s'' :=
  ⟨h'.key.trans h.key, fun ht => h'.terms (h.terms ht), fun hid => h'.ids (h.ids hid)⟩

/-! ### Interning -/

/-- A term that is stored has its id, a new one is put at the end, and one with an unknown argument
is refused. -/
theorem intern_cases (s : Store) (t : StoredTerm) :
    (∃ id, s.idOf? t = some id ∧ s.intern t = (.ok id, s)) ∨
    (s.idOf? t = none ∧ ∃ h, s.intern t = (.ok s.size, s.push t h)) ∨
    (s.idOf? t = none ∧ (¬ ∀ a ∈ t.args, a < s.size) ∧ s.intern t = (.error .unknownId, s)) := by
  unfold intern
  cases hid : s.idOf? t with
  | some id => exact .inl ⟨id, rfl, rfl⟩
  | none =>
      by_cases hargs : ∀ a ∈ t.args, a < s.terms.size
      · exact .inr (.inl ⟨rfl, hargs, dif_pos hargs⟩)
      · exact .inr (.inr ⟨rfl, hargs, dif_neg hargs⟩)

theorem intern_of_idOf? (h : s.idOf? t = some id) : s.intern t = (.ok id, s) := by
  rw [intern, h]

theorem getElem?_ids_push (hargs : ∀ a ∈ t.args, a < s.terms.size) (f : Fingerprint) :
    (s.push t hargs).ids[f]? = if t.fingerprint = f then some s.size else s.ids[f]? := by
  simp [push, Std.HashMap.getElem?_insert]

theorem getElem?_terms_push (hargs : ∀ a ∈ t.args, a < s.terms.size) (i : Nat) :
    (s.push t hargs).terms[i]? = if i = s.size then some t else s.terms[i]? :=
  Array.getElem?_push

theorem Extends.push (hnew : s.idOf? t = none)
    (hargs : ∀ a ∈ t.args, a < s.terms.size) : s.Extends (s.push t hargs) := by
  refine ⟨rfl, fun {i u} hi => ?_, fun {f i} hi => ?_⟩
  · obtain ⟨hlt, -⟩ := Array.getElem?_eq_some_iff.1 hi
    rw [getElem?_terms_push, if_neg (Nat.ne_of_lt hlt), hi]
  · have hne : t.fingerprint ≠ f := by
      rintro rfl
      rw [idOf?, hi] at hnew
      cases hnew
    rw [getElem?_ids_push, if_neg hne, hi]

/-- Putting a term at the end keeps the tables inverse if no equal term is stored. -/
theorem Valid.push (h : s.Valid) (hnew : s.idOf? t = none)
    (hargs : ∀ a ∈ t.args, a < s.terms.size) : (s.push t hargs).Valid := by
  constructor
  · intro i u hi
    rw [getElem?_terms_push] at hi
    split at hi
    next heq => rw [getElem?_ids_push, if_pos (congrArg _ (Option.some.inj hi)), heq]
    next => exact (Extends.push hnew hargs).ids (h.id_of_term hi)
  · intro f i hi
    rw [getElem?_ids_push] at hi
    split at hi
    next heq =>
      obtain rfl := Option.some.inj hi
      exact ⟨t, by rw [getElem?_terms_push, if_pos rfl], heq⟩
    next =>
      obtain ⟨u, hu, hf⟩ := h.term_of_id hi
      exact ⟨u, (Extends.push hnew hargs).terms hu, hf⟩

/-- Whatever interning answers, the store stays valid and keeps what it has. -/
theorem Valid.intern (h : s.Valid) (t : StoredTerm) :
    (s.intern t).2.Valid ∧ s.Extends (s.intern t).2 := by
  rcases s.intern_cases t with ⟨id, -, he⟩ | ⟨hnew, hargs, he⟩ | ⟨-, -, he⟩
  · rw [he]
    exact ⟨h, .refl s⟩
  · rw [he]
    exact ⟨h.push hnew hargs, .push hnew hargs⟩
  · rw [he]
    exact ⟨h, .refl s⟩

/-- A term whose arguments are stored gets an id, by which it is found from then on. -/
theorem exists_intern_eq_ok (s : Store) (hargs : ∀ a ∈ t.args, a < s.size) :
    ∃ id s', s.intern t = (.ok id, s') ∧ s'.idOf? t = some id := by
  rcases s.intern_cases t with ⟨id, hid, he⟩ | ⟨-, h, he⟩ | ⟨-, h, -⟩
  · exact ⟨id, s, he, hid⟩
  · exact ⟨s.size, s.push t h, he, (getElem?_ids_push h _).trans (if_pos rfl)⟩
  · exact absurd hargs h

/-- A term is refused exactly if an argument is unknown. -/
theorem intern_eq_unknownId_iff (h : s.Valid) :
    (s.intern t).1 = .error .unknownId ↔ ∃ a ∈ t.args, s.size ≤ a := by
  rcases s.intern_cases t with ⟨id, hid, he⟩ | ⟨-, hargs, he⟩ | ⟨-, hargs, he⟩
  · rw [he]
    refine iff_of_false nofun ?_
    rintro ⟨a, ha, hle⟩
    obtain ⟨u, hu, hf⟩ := h.term_of_id hid
    obtain ⟨hlt, rfl⟩ := Array.getElem?_eq_some_iff.1 hu
    have hua : a ∈ s.terms[id].args := by
      rw [← StoredTerm.args_fingerprint, hf, StoredTerm.args_fingerprint]
      exact ha
    have halt : a < id := s.args_lt id hlt a hua
    exact absurd (Nat.lt_trans halt hlt) (Nat.not_lt.2 hle)
  · rw [he]
    refine iff_of_false nofun ?_
    rintro ⟨a, ha, hle⟩
    exact absurd (hargs a ha) (Nat.not_lt.2 hle)
  · rw [he]
    refine iff_of_true rfl ?_
    simpa using hargs

/-! ### Contents -/

mutual

/-- The fingerprint that a term has in a store: its node over the ids of its arguments. -/
def fingerprint? (s : Store) : Term → Option Fingerprint
  | .var x _ => some (.var x)
  | .native v sort _ => some (.native v sort)
  | .app c ts _ => (s.findAll? ts).map (.app c.key)

/-- The ids of terms by their contents, if all of them are stored. -/
def findAll? (s : Store) : List Term → Option (List Nat)
  | [] => some []
  | t :: ts => ((s.fingerprint? t).bind (s.ids[·]?)).bind fun id => (s.findAll? ts).map (id :: ·)

end

/-- The id of a term by its contents, if it is stored. -/
def find? (s : Store) (t : Term) : Option Nat := (s.fingerprint? t).bind (s.ids[·]?)

theorem findAll?_cons (s : Store) (t : Term) (ts : List Term) :
    s.findAll? (t :: ts) = (s.find? t).bind fun id => (s.findAll? ts).map (id :: ·) := by
  rw [findAll?, find?]

theorem findAll?_eq_some_iff {ts : List Term} {ids : List Nat} :
    s.findAll? ts = some ids ↔ ts.map s.find? = ids.map some := by
  induction ts generalizing ids with
  | nil => cases ids <;> simp [findAll?]
  | cons t ts ih =>
      rw [findAll?_cons]
      cases ids with
      | nil => cases s.find? t <;> simp
      | cons id ids =>
          rw [List.map_cons, List.map_cons, List.cons.injEq, ← ih]
          cases s.find? t with
          | none => simp
          | some a =>
              rw [Option.bind_some, Option.map_eq_some_iff, Option.some.injEq]
              constructor
              · rintro ⟨as, has, he⟩
                cases he
                exact ⟨rfl, has⟩
              · rintro ⟨rfl, hids⟩
                exact ⟨ids, hids, rfl⟩

mutual

theorem Extends.fingerprint? (h : s.Extends s') : (t : Term) → {f : Fingerprint} →
    s.fingerprint? t = some f → s'.fingerprint? t = some f
  | .var _ _, _, ht => ht
  | .native _ _ _, _, ht => ht
  | .app c ts _, _, ht => by
      obtain ⟨ids, hids, hf⟩ := Option.map_eq_some_iff.1 ht
      rw [Store.fingerprint?, h.findAll? ts hids, Option.map_some, hf]

theorem Extends.findAll? (h : s.Extends s') : (ts : List Term) → {ids : List Nat} →
    s.findAll? ts = some ids → s'.findAll? ts = some ids
  | [], _, hts => hts
  | t :: ts, _, hts => by
      obtain ⟨id, hid, hrest⟩ := Option.bind_eq_some_iff.1 hts
      obtain ⟨f, hf, hfid⟩ := Option.bind_eq_some_iff.1 hid
      obtain ⟨ids, hids, rfl⟩ := Option.map_eq_some_iff.1 hrest
      rw [Store.findAll?, h.fingerprint? t hf, Option.bind_some, h.ids hfid, Option.bind_some,
        h.findAll? ts hids, Option.map_some]

end

theorem Extends.find? (h : s.Extends s') {t : Term} (ht : s.find? t = some id) :
    s'.find? t = some id := by
  obtain ⟨f, hf, hid⟩ := Option.bind_eq_some_iff.1 ht
  rw [Store.find?, h.fingerprint? t hf, Option.bind_some, h.ids hid]

theorem Valid.find?_lt (h : s.Valid) {t : Term} (ht : s.find? t = some id) : id < s.size := by
  obtain ⟨f, -, hid⟩ := Option.bind_eq_some_iff.1 ht
  exact h.lt_size hid

theorem Valid.findAll?_lt (h : s.Valid) {ts : List Term} {ids : List Nat}
    (hts : s.findAll? ts = some ids) : ∀ a ∈ ids, a < s.size := by
  intro a ha
  have hmem : some a ∈ ts.map s.find? := by
    rw [findAll?_eq_some_iff.1 hts]
    exact List.mem_map_of_mem ha
  obtain ⟨t, -, ht⟩ := List.mem_map.1 hmem
  exact h.find?_lt ht

end Store

end ManySorted
