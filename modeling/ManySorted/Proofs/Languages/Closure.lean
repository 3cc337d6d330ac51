import ManySorted.Proofs.Languages.Refusing
import ManySorted.Proofs.Languages.Resolving

/-!
Closed tables. Whatever is added and joined, and on whatever registries, the tables of a language
speak of its own sorts: signatures and owners are registered, and the constants of a registered sort
are in the table (`Language.Closed`). So the checker answers registered sorts only, and a sort with a
new name cannot declare a constant that is there already.
-/

namespace ManySorted

namespace Language

/-- Every signature has a fixed slot, its fixed slots and the owner of its constant are registered,
and every constant of a registered sort has the signature that the sort declares. -/
structure Closed (L : Language) : Prop where
  anchored : ∀ c sig, L.signature? c = some sig → ∃ name, .fixed name ∈ sig.slots
  known : ∀ c sig name, L.signature? c = some sig → .fixed name ∈ sig.slots → L.hasSort name = true
  owned : ∀ c sig, L.signature? c = some sig → L.hasSort c.owner = true
  listed : ∀ name s c sig, L.sort? name = some s → (c, sig) ∈ s.constants.rows →
    L.signature? c = some sig

variable {L : Language} {r : Registry} {f : Fault}

theorem Tabled.closed (h : L.Tabled) (hL : L.Admitting) : L.Closed := by
  refine ⟨fun c sig hsig => ?_, fun c sig name hsig hmem => ?_, fun c sig hsig => ?_,
    fun name s c sig hs hrow => ?_⟩
  · exact Signature.isAnchored_iff.1 (admits_iff.1 (hL hsig)).1
  · rcases (admits_iff.1 (hL hsig)).2 name hmem with hown | hknown
    · cases hown
    · exact hknown
  · exact hasSort_iff.2 (h.registered hsig)
  · exact h.listed hs (Constants.signature?_eq_some_iff.2 ⟨c, hrow, rfl⟩)

theorem Closed.of_constant? (h : L.Closed) {sort : SortName} {op : Name} {c : Const}
    (hc : L.constant? sort op = some c) : ∃ sig, L.signature? c = some sig := by
  obtain ⟨s, hs, hnamed⟩ := Option.bind_eq_some_iff.1 hc
  obtain ⟨⟨d, sig⟩, hfind, rfl⟩ := Option.map_eq_some_iff.1 hnamed
  exact ⟨sig, h.listed sort s d sig hs (List.mem_of_find?_eq_some hfind)⟩

/-- The sorts that are offered one after the other stop, if they stop, at one that is refused. -/
theorem Tabled.refusal_of_addAll (sorts : List SortDef) (h : L.Tabled) (hr : r.Named)
    (hf : (L.addAll r sorts).1 = .error f) : ∃ M k, Refusal M k f := by
  induction sorts generalizing L r with
  | nil => cases hf
  | cons s sorts ih =>
      rw [addAll] at hf
      cases ha : L.add r s with
      | error g =>
          rw [ha] at hf
          obtain rfl := Except.error.inj hf
          exact ⟨L, _, h.refusal_of_checkSort (add_eq_error_iff.1 ha)⟩
      | ok a =>
          rw [ha] at hf
          obtain ⟨hcheck, rfl⟩ := (add_eq_ok_iff hr).1 ha
          exact ih (h.insert hcheck) (hr.canonical _) hf

end Language

theorem HasSort.hasSort {L : Language} {G : SortEnv} {t : Term} {s : SortName}
    (h : HasSort L G t s) (hL : L.Closed) (hG : ∀ x r, G x = some r → L.hasSort r = true) :
    L.hasSort s = true := by
  induction h with
  | var hx => exact hG _ _ hx
  | native hk hv => exact Language.hasSort_iff.2 ⟨_, hk⟩
  | @app c ts l sig p hsig hn _ hfree ih =>
      cases hresult : sig.result with
      | fixed name =>
          have hmem : .fixed name ∈ sig.slots := by
            rw [Signature.slots, hresult]
            exact List.mem_append_right _ List.mem_cons_self
          exact hL.known c sig name hsig hmem
      | free =>
          -- some argument has the sort of the free slots, and that one is registered
          obtain ⟨i, hi⟩ := List.mem_iff_getElem?.1 (hfree hresult)
          obtain ⟨u, hu⟩ := Signature.exists_argument hn hi
          exact ih i .free u hi hu

namespace LanguageSession

variable {t t' : LanguageSession} {call : LanguageCall} {r : Outcome (Option SortDef)}
  {p : Nat → Prop}

theorem Built.closed (h : t.Built (fun _ _ => True) p) {L : Language} (hL : L ∈ t.languages) :
    L.Closed := by
  obtain ⟨Ls, hreached, hsub⟩ := h.reached
  exact (h.tabled hL).closed (hreached.admitting L (hsub L hL))

/-- A call that fails names a place where nothing is, or a sort is refused. -/
theorem Effect.error_cases (he : t.Effect call r t') (h : t.Built (fun _ _ => True) p) {f : Fault}
    (hf : r = .error f) :
    (∃ length place, f = .indexOutOfRange length place) ∨ ∃ L k, Language.Refusal L k f := by
  cases he with
  | missing length place => exact .inl ⟨length, place, (Except.error.inj hf).symm⟩
  | opened => cases hf
  | made => cases hf
  | added sorts hi _ _ hfault =>
      have htabled := h.tabled (List.mem_of_getElem? hi)
      exact .inr (htabled.refusal_of_addAll sorts (h.named _) (hfault f hf))
  | offered => cases hf

/-- Whatever was called before: the tables of every language are closed; in an environment of
registered sorts the checker answers registered sorts; a constant that is found by its name has a
signature; and no call fails because a constant is taken. -/
theorem tables_closed (calls : List LanguageCall) :
    (∀ L ∈ (run {} calls).languages, L.Closed ∧
      (∀ G, (∀ x s, G x = some s → L.hasSort s = true) →
        ∀ t s, L.check G t = .ok (some s) → L.hasSort s = true) ∧
      ∀ sort op c, L.constant? sort op = some c → ∃ sig, L.signature? c = some sig) ∧
    ∀ call c, ((run {} calls).step call).1 ≠ .error (.constantTaken c) := by
  have hbuilt := built calls
  refine ⟨fun L hL => ?_, fun call c hf => ?_⟩
  · have hclosed : L.Closed := hbuilt.closed hL
    refine ⟨hclosed, fun G hG t s ht => ?_, fun sort op c hc => hclosed.of_constant? hc⟩
    have hsort : HasSort L G t s := .of_check t s ht
    exact hsort.hasSort hclosed hG
  · rcases (hbuilt.effect call).error_cases hbuilt hf with ⟨length, place, he⟩ | ⟨L, k, hrefusal⟩
    · cases he
    · cases hrefusal

end LanguageSession

end ManySorted
