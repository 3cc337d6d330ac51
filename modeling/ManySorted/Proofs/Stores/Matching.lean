import ManySorted.Proofs.Stores.Appending
import ManySorted.Proofs.Stores.Reaching
import ManySorted.Proofs.Terms.Sizes
import Mathlib.Data.Set.Card
import Mathlib.Order.Interval.Finset.Nat

/-!
Stores that have equal terms. Their ids correspond one to one, and a term that both of them have has
one size in both.
-/

namespace ManySorted.Store

variable {s s' : Store}

/-- The ids of two stores correspond one to one, and what is stored under them is the same up to this
correspondence and the names of constants. -/
structure Matches (s s' : Store) (π : Nat → Nat) : Prop where
  bijOn : Set.BijOn π (Set.Iio s.size) (Set.Iio s'.size)
  terms : ∀ {id : Nat} {t : StoredTerm}, s.terms[id]? = some t →
    ∃ u, s'.terms[π id]? = some u ∧ u.fingerprint = StoredTerm.fingerprint (t.map π)

theorem Matches.size_eq {π : Nat → Nat} (h : s.Matches s' π) : s.size = s'.size := by
  have hncard : ∀ n : Nat, (Set.Iio n).ncard = n := fun n => by
    rw [Set.ncard_eq_toFinset_card', Set.toFinset_Iio, Nat.card_Iio]
  have himage : (Set.Iio s'.size).ncard = (Set.Iio s.size).ncard :=
    h.bijOn.image_eq ▸ h.bijOn.injOn.ncard_image
  rw [hncard, hncard] at himage
  exact himage.symm

/-- The ids of a store are given the ids that another one has for their terms. -/
theorem exists_ids_of_same_contents (hs : s.Valid)
    (h : ∀ v, (s.find? v).isSome ↔ (s'.find? v).isSome) :
    ∃ π : Nat → Nat, ∀ id h, s'.find? (s.plain id h) = some (π id) := by
  have hfound : ∀ id h, ∃ i, s'.find? (s.plain id h) = some i := by
    intro id hid
    rw [← Option.isSome_iff_exists, ← h, find?_plain hs hid]
    rfl
  refine ⟨fun id => if h : id < s.size then (s'.find? (s.plain id h)).getD 0 else 0, ?_⟩
  intro id hid
  obtain ⟨i, hi⟩ := hfound id hid
  simp only [dif_pos hid, hi, Option.getD_some]

/-- Stores that have the same terms up to equality match. -/
theorem exists_matches (hs : s.Valid) (hs' : s'.Valid)
    (h : ∀ v, (s.find? v).isSome ↔ (s'.find? v).isSome) : ∃ π, s.Matches s' π := by
  obtain ⟨π, hπ⟩ := exists_ids_of_same_contents hs h
  refine ⟨π, ⟨?_, ?_, ?_⟩, ?_⟩
  · intro i hi
    exact hs'.find?_lt (hπ i hi)
  · intro i hi j hj hij
    -- Both stores tell terms apart by equality, so one id of the second is not that of two.
    have hsame := (hs'.id_eq_iff (hπ i hi) (hπ j hj)).1 hij
    exact (hs.id_eq_iff (find?_plain hs hi) (find?_plain hs hj)).2 hsame
  · intro j hj
    obtain ⟨i, hi⟩ : ∃ i, s.find? (s'.plain j hj) = some i := by
      rw [← Option.isSome_iff_exists, h, find?_plain hs' hj]
      rfl
    have hlt : i < s.size := hs.find?_lt hi
    have hsame := (hs.id_eq_iff (find?_plain hs hlt) hi).1 rfl
    refine ⟨i, hlt, ?_⟩
    rw [← Option.some.injEq, ← hπ i hlt, s'.find?_of_same hsame, find?_plain hs' hj]
  · intro id t ht
    obtain ⟨hid, rfl⟩ := Array.getElem?_eq_some_iff.1 ht
    have hnode : s'.fingerprint? (s.plain id hid) =
        some (StoredTerm.fingerprint (s.terms[id].map π)) := by
      rw [plain, unfold, fingerprint?_ofShape (s.node id hid) fun (a : Fin id) _ =>
        hπ a (Nat.lt_trans a.isLt hid)]
      rw [← s.map_val_node id hid, Shape.map_map]
    have hfound := hπ id hid
    rw [find?, hnode] at hfound
    exact hs'.term_of_id hfound

/-! ### Sizes -/

variable {t v : Term} {id a : Nat}

/-- The size of a stored term is the number of its nodes, up to the largest size. -/
theorem treeSize_of_find? (hs : s.Valid) (ht : s.find? t = some id) :
    s.treeSize id = .ok (min t.subterms.length (2 ^ 64 - 1)) := by
  have hnames : Fold.size.IgnoresNames := fun _ _ _ _ _ => rfl
  rw [← maxSize_eq, ← t.fold_size]
  exact seen_fold hs ht hnames.determines

/-- The node under which a term is stored has the ids of the arguments. -/
theorem mentions_iff (hs : s.Valid) (ht : s.find? t = some id) :
    s.Mentions id a ↔ ∃ u ∈ t.args, s.find? u = some a := by
  obtain ⟨u, hu, hargs⟩ : ∃ u, s.terms[id]? = some u ∧ t.args.map s.find? = u.args.map some := by
    obtain ⟨f, hf, hid⟩ := Option.bind_eq_some_iff.1 ht
    obtain ⟨u, hu, rfl⟩ := hs.term_of_id hid
    refine ⟨u, hu, ?_⟩
    rw [← StoredTerm.args_fingerprint]
    cases t with
    | var x l =>
        rw [← Option.some.inj hf]
        rfl
    | native w r l =>
        rw [← Option.some.inj hf]
        rfl
    | app c ts l =>
        obtain ⟨ids, hids, hf⟩ := Option.map_eq_some_iff.1 hf
        rw [← hf]
        exact findAll?_eq_some_iff.1 hids
  have hmem : a ∈ u.args ↔ some a ∈ t.args.map s.find? := by
    rw [hargs, List.mem_map_of_injective (Option.some_injective _)]
  rw [← List.mem_map, ← hmem]
  constructor
  · rintro ⟨w, hw, ha⟩
    obtain rfl := Option.some.inj (hu.symm.trans hw)
    exact ha
  · exact fun ha => ⟨u, hu, ha⟩

/-- A stored term reaches the ids of its parts. -/
theorem reaches_iff (hs : s.Valid) (ht : s.find? t = some id) :
    s.Reaches id a ↔ ∃ v, v.PartOf t ∧ s.find? v = some a := by
  constructor
  · intro h
    induction h with
    | refl => exact ⟨t, .refl, ht⟩
    | tail _ hlast ih =>
        obtain ⟨v, hv, hb⟩ := ih
        obtain ⟨u, hu, hc⟩ := (mentions_iff hs hb).1 hlast
        exact ⟨u, (Term.PartOf.arg hu .refl).trans hv, hc⟩
  · rintro ⟨v, hv, ha⟩
    induction hv generalizing id with
    | refl =>
        obtain rfl := Option.some.inj (ht.symm.trans ha)
        exact .refl
    | arg hmem hpart ih =>
        obtain ⟨b, hb⟩ := exists_find?_of_partOf (.arg hmem .refl) ht
        exact .head ((mentions_iff hs ht).2 ⟨_, hmem, hb⟩) (ih hb)

/-- The shared size of a term is the number of its subterms that are not equal. -/
theorem sharedSize_of_find? (hs : s.Valid) (ht : s.find? t = some id) :
    s.sharedSize id = .ok (t.subterms.eraseDupsBy Term.same).length := by
  obtain ⟨n, hn, hcount⟩ := exists_sharedSize (hs.find?_lt ht)
  let idOf : Term → Nat := fun v => (s.find? v).getD 0
  have hpart : ∀ v ∈ t.subterms.eraseDupsBy Term.same, v.PartOf t := fun v hv =>
    Term.mem_subterms_iff.1 (mem_of_mem_eraseDupsBy hv)
  have hfind : ∀ v, v.PartOf t → s.find? v = some (idOf v) := by
    intro v hv
    obtain ⟨i, hi⟩ := exists_find?_of_partOf hv ht
    rw [hi, Option.some.injEq]
    exact (congrArg (Option.getD · 0) hi).symm
  have hnodup : ((t.subterms.eraseDupsBy Term.same).map idOf).Nodup := by
    rw [List.Nodup, List.pairwise_map]
    refine (pairwise_eraseDupsBy Term.same t.subterms).imp_of_mem fun {u v} hu hv hne heq => ?_
    have hsame := (hs.id_eq_iff (hfind v (hpart v hv)) (hfind u (hpart u hu))).1 heq.symm
    rw [hne] at hsame
    cases hsame
  have hreach : ∀ a ∈ (t.subterms.eraseDupsBy Term.same).map idOf, s.Reaches id a := by
    rw [List.forall_mem_map]
    intro v hv
    exact (reaches_iff hs ht).2 ⟨v, hpart v hv, hfind v (hpart v hv)⟩
  rw [hn, ← (hcount _ hnodup hreach).2, List.length_map]
  intro a ha
  obtain ⟨v, hv, hva⟩ := (reaches_iff hs ht).1 ha
  obtain ⟨u, hu, hsame⟩ :=
    exists_mem_eraseDupsBy Term.same_refl (Term.mem_subterms_iff.2 hv)
  refine List.mem_map.2 ⟨u, hu, Option.some.inj ?_⟩
  rw [← hfind u (hpart u hu), ← s.find?_of_same hsame, hva]

end ManySorted.Store
