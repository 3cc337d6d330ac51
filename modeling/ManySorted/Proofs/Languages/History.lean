import ManySorted.Proofs.Languages.Extending
import ManySorted.Proofs.Languages.Joining
import ManySorted.Workspace

/-!
Histories of languages: any number of registries and languages, made, extended, copied and joined
in any order. Every language of a history is one that `Reached` builds, no registry ever replaces a
sort, and a language loses nothing while it is extended.
-/

namespace ManySorted

/-- The languages that a program holds, and the workspace with the registries that they consult. -/
structure LanguageSession where
  workspace : Workspace := .initial
  languages : List Language := []

/-- What a program can do with languages and registries. It names both by their places. -/
inductive LanguageCall where
  | newRegistry
  | empty (registry : Nat)
  | add (language : Nat) (s : SortDef)
  | addBuiltIns (language : Nat)
  | clone (language : Nat)
  | join (left right : Nat)
  | canonical (registry : Nat) (s : SortDef)

namespace LanguageSession

/-- Holds one language more. -/
def hold (t : LanguageSession) (L : Language) : LanguageSession :=
  { t with languages := t.languages ++ [L] }

/-- What a call answers, a sort if it gives one, and the session after it. -/
def step (t : LanguageSession) : LanguageCall → Outcome (Option SortDef) × LanguageSession
  | .newRegistry =>
    let (_, w) := Workspace.newRegistry.run t.workspace
    (.ok none, { t with workspace := w })
  | .empty number =>
    if number < t.workspace.registries.size then (.ok none, t.hold (.empty number))
    else (.error (.indexOutOfRange t.workspace.registries.size number), t)
  | .add i s =>
    match itemAt t.languages i with
    | .ok L =>
      match (Workspace.addSort L s).run.run t.workspace with
      | (.ok (k, L), w) => (.ok (some k), ⟨w, t.languages.set i L⟩)
      | (.error f, w) => (.error f, { t with workspace := w })
    | .error f => (.error f, t)
  | .addBuiltIns i =>
    match itemAt t.languages i with
    | .ok L =>
      let ((r, L), w) := (Workspace.addBuiltIns L).run t.workspace
      (r.map fun _ => none, ⟨w, t.languages.set i L⟩)
    | .error f => (.error f, t)
  | .clone i =>
    match itemAt t.languages i with
    | .ok L => (.ok none, t.hold L)
    | .error f => (.error f, t)
  | .join i j =>
    match itemAt t.languages i, itemAt t.languages j with
    | .ok L, .ok M => (.ok none, t.hold (L.join M))
    | .error f, _ | .ok _, .error f => (.error f, t)
  | .canonical number s =>
    if number < t.workspace.registries.size then
      let (k, w) := (Workspace.canonical number s).run t.workspace
      (.ok (some k), { t with workspace := w })
    else (.error (.indexOutOfRange t.workspace.registries.size number), t)

def run (t : LanguageSession) : List LanguageCall → LanguageSession
  | [] => t
  | c :: calls => (t.step c).2.run calls

end LanguageSession

/-! ### Registries of a workspace -/

namespace Workspace

variable {w : Workspace} {number : Nat}

theorem registry_setRegistry (h : number < w.registries.size) (r : Registry) :
    (w.setRegistry number r).registry = Function.update w.registry number r := by
  funext m
  by_cases hm : m = number
  · subst hm
    simp [registry, setRegistry, h]
  · simp [registry, setRegistry, Function.update_of_ne hm, Ne.symm hm]

theorem size_setRegistry (r : Registry) :
    (w.setRegistry number r).registries.size = w.registries.size :=
  Array.size_setIfInBounds

theorem registry_newRegistry (w : Workspace) :
    (newRegistry.run w).2.registry = w.registry := by
  funext m
  change (w.registries.push {}).getD m {} = w.registries.getD m {}
  rw [Array.getD_eq_getD_getElem?, Array.getD_eq_getD_getElem?, Array.getElem?_push]
  split
  next hm => simp [hm]
  next => rfl

/-- Adding a sort fails and changes nothing, or it leaves the workspace with the registry that there
is when the language has the sort. -/
theorem run_addSort (L : Language) (s : SortDef) (w : Workspace) :
    (addSort L s).run.run w = match L.add (w.registry L.registry) s with
      | .ok a => (.ok (a.sort, a.language), w.setRegistry L.registry a.registry)
      | .error f => (.error f, w) := by
  rw [Language.add]
  generalize hk : ((w.registry L.registry).get? s.name).getD s = k
  have hrun : (addSort L s).run.run w =
      (do L.checkSort k; canonical L.registry k >>= fun k => pure (k, L.insert k) :
        Run Workspace (SortDef × Language)).run.run w := by
    rw [← hk]
    rfl
  rw [hrun]
  cases L.checkSort k with
  | error f => rfl
  | ok u => rfl

end Workspace

theorem Workspace.registry_initial : Workspace.initial.registry = fun _ => {} := by
  funext m
  cases m with
  | zero => rfl
  | succ m => rfl

namespace LanguageSession

variable {t t' : LanguageSession} {c : LanguageCall} {r : Outcome (Option SortDef)}
  {allowed : Language → Language → Prop} {p : Nat → Prop}

/-! ### What a call does -/

/-- The language that a call makes. -/
inductive Makes (t : LanguageSession) : LanguageCall → Language → Prop
  | empty {number} : number < t.workspace.registries.size →
      Makes t (.empty number) (.empty number)
  | clone {i L} : t.languages[i]? = some L → Makes t (.clone i) L
  | join {i j L M} : t.languages[i]? = some L → t.languages[j]? = some M →
      Makes t (.join i j) (L.join M)

/-- What a call answers and does: nothing is at a place that it names; or a registry is opened; or a
language is made; or sorts are added to a language, one after the other, up to the first that is
refused; or a sort is offered to a registry. -/
inductive Effect (t : LanguageSession) (c : LanguageCall) :
    Outcome (Option SortDef) → LanguageSession → Prop
  | missing (length place : Nat) : Effect t c (.error (.indexOutOfRange length place)) t
  | opened {w} : w.registry = t.workspace.registry →
      t.workspace.registries.size ≤ w.registries.size →
      Effect t c (.ok none) { t with workspace := w }
  | made {L} : t.Makes c L → Effect t c (.ok none) (t.hold L)
  | added {i L r w} (sorts : List SortDef) : t.languages[i]? = some L →
      w.registry = Function.update t.workspace.registry L.registry
        (L.addAll (t.workspace.registry L.registry) sorts).2.2 →
      w.registries.size = t.workspace.registries.size →
      (∀ f, r = .error f → (L.addAll (t.workspace.registry L.registry) sorts).1 = .error f) →
      Effect t c r ⟨w, t.languages.set i (L.addAll (t.workspace.registry L.registry) sorts).2.1⟩
  | offered {number s w k} : w.registry = Function.update t.workspace.registry number
        ((t.workspace.registry number).canonical s).2 →
      w.registries.size = t.workspace.registries.size →
      Effect t c (.ok k) { t with workspace := w }

theorem step_add {i : Nat} {L : Language} (hL : t.languages[i]? = some L) (s : SortDef) :
    t.step (.add i s) = match L.add (t.workspace.registry L.registry) s with
      | .ok a => (.ok (some a.sort),
          ⟨t.workspace.setRegistry L.registry a.registry, t.languages.set i a.language⟩)
      | .error f => (.error f, t) := by
  rw [step, itemAt_eq_ok_iff.2 hL]
  simp only [Workspace.run_addSort]
  cases L.add (t.workspace.registry L.registry) s with
  | ok a => rfl
  | error f => rfl

/-- A language gains the canonical sort with the name of the sort that is offered. -/
theorem step_add_of_check {i : Nat} {L : Language} (hL : t.languages[i]? = some L) {s k : SortDef}
    (hr : (t.workspace.registry L.registry).Named)
    (hk : ((t.workspace.registry L.registry).get? s.name).getD s = k)
    (hcheck : L.checkSort k = .ok ()) : t.step (.add i s) = (.ok (some k),
      ⟨t.workspace.setRegistry L.registry ((t.workspace.registry L.registry).canonical k).2,
        t.languages.set i (L.insert k)⟩) := by
  have ha : L.add (t.workspace.registry L.registry) s =
      .ok ⟨k, L.insert k, ((t.workspace.registry L.registry).canonical k).2⟩ := by
    rw [Language.add_eq_ok_iff hr, hk]
    exact ⟨hcheck, rfl⟩
  rw [step_add hL, ha]

theorem step_add_of_refused {i : Nat} {L : Language} (hL : t.languages[i]? = some L)
    {s k : SortDef} (hk : ((t.workspace.registry L.registry).get? s.name).getD s = k) {f : Fault}
    (hcheck : L.checkSort k = .error f) : t.step (.add i s) = (.error f, t) := by
  have ha : L.add (t.workspace.registry L.registry) s = .error f := by
    rwa [Language.add_eq_error_iff, hk]
  rw [step_add hL, ha]

theorem effect_add {i : Nat} {L : Language} (hL : t.languages[i]? = some L)
    (hlt : L.registry < t.workspace.registries.size) (s : SortDef) :
    t.Effect c (t.step (.add i s)).1 (t.step (.add i s)).2 := by
  rw [step_add hL]
  cases ha : L.add (t.workspace.registry L.registry) s with
  | ok a =>
      have hall : L.addAll (t.workspace.registry L.registry) [s] =
          (.ok (), a.language, a.registry) := by
        simp only [Language.addAll, ha]
      have he := Effect.added (c := c) (r := .ok (some a.sort)) [s] hL
        (w := t.workspace.setRegistry L.registry a.registry)
      rw [hall] at he
      refine he (Workspace.registry_setRegistry hlt _) (Workspace.size_setRegistry _) ?_
      intro f hf
      cases hf
  | error f =>
      have hall : L.addAll (t.workspace.registry L.registry) [s] =
          (.error f, L, t.workspace.registry L.registry) := by
        simp only [Language.addAll, ha]
      have he := Effect.added (c := c) (r := .error f) [s] hL (w := t.workspace)
      obtain ⟨hi, rfl⟩ := List.getElem?_eq_some_iff.1 hL
      rw [hall, List.set_getElem_self, Function.update_eq_self] at he
      refine he rfl rfl ?_
      rintro g ⟨⟩
      rfl

theorem effect_addBuiltIns {i : Nat} {L : Language} (hL : t.languages[i]? = some L)
    (hlt : L.registry < t.workspace.registries.size) :
    t.Effect c (t.step (.addBuiltIns i)).1 (t.step (.addBuiltIns i)).2 := by
  rw [step, itemAt_eq_ok_iff.2 hL]
  refine .added (builtIns t.workspace.stamp) hL ?_ ?_ ?_
  · exact Workspace.registry_setRegistry hlt _
  · exact Workspace.size_setRegistry _
  · intro f hf
    change ((L.addAll (t.workspace.registry L.registry) (builtIns t.workspace.stamp)).1.map
      fun _ => none) = .error f at hf
    cases ho : (L.addAll (t.workspace.registry L.registry) (builtIns t.workspace.stamp)).1 with
    | ok u =>
        rw [ho] at hf
        cases hf
    | error g =>
        rw [ho] at hf
        cases hf
        rfl

theorem effect_step (hlt : ∀ L ∈ t.languages, L.registry < t.workspace.registries.size)
    (c : LanguageCall) : t.Effect c (t.step c).1 (t.step c).2 := by
  cases c with
  | newRegistry =>
      refine .opened (Workspace.registry_newRegistry _) ?_
      change _ ≤ (t.workspace.registries.push {}).size
      rw [Array.size_push]
      exact Nat.le_succ _
  | empty number =>
      rw [step]
      split
      next h => exact .made (.empty h)
      next => exact .missing _ number
  | add i s =>
      cases hL : t.languages[i]? with
      | none =>
          rw [step, itemAt_of_none hL]
          exact .missing _ i
      | some L => exact effect_add hL (hlt L (List.mem_of_getElem? hL)) s
  | addBuiltIns i =>
      cases hL : t.languages[i]? with
      | none =>
          rw [step, itemAt_of_none hL]
          exact .missing _ i
      | some L => exact effect_addBuiltIns hL (hlt L (List.mem_of_getElem? hL))
  | clone i =>
      cases hL : t.languages[i]? with
      | none =>
          rw [step, itemAt_of_none hL]
          exact .missing _ i
      | some L =>
          rw [step, itemAt_eq_ok_iff.2 hL]
          exact .made (.clone hL)
  | join i j =>
      cases hL : t.languages[i]? with
      | none =>
          rw [step, itemAt_of_none hL]
          exact .missing _ i
      | some L =>
          cases hM : t.languages[j]? with
          | none =>
              rw [step, itemAt_eq_ok_iff.2 hL, itemAt_of_none hM]
              exact .missing _ j
          | some M =>
              rw [step, itemAt_eq_ok_iff.2 hL, itemAt_eq_ok_iff.2 hM]
              exact .made (.join hL hM)
  | canonical number s =>
      rw [step]
      split
      next h =>
        exact .offered (Workspace.registry_setRegistry h _) (Workspace.size_setRegistry _)
      next => exact .missing _ number

/-! ### Histories -/

/-- The languages were built on the registries of the workspace, by joins that are allowed and from
empty languages on registries with `p`. -/
structure Built (allowed : Language → Language → Prop) (p : Nat → Prop) (t : LanguageSession) :
    Prop where
  reached : ∃ Ls, Reached allowed t.workspace.registry Ls ∧ ∀ L ∈ t.languages, L ∈ Ls
  registry : ∀ L ∈ t.languages, p L.registry ∧ L.registry < t.workspace.registries.size

theorem Built.initial : Built allowed p {} :=
  ⟨⟨[], Workspace.registry_initial ▸ .start, nofun⟩, nofun⟩

theorem Built.named (h : t.Built allowed p) (number : Nat) : (t.workspace.registry number).Named := by
  obtain ⟨Ls, hreached, -⟩ := h.reached
  exact hreached.named number

theorem Built.tabled (h : t.Built allowed p) {L : Language} (hL : L ∈ t.languages) : L.Tabled := by
  obtain ⟨Ls, hreached, hsub⟩ := h.reached
  exact hreached.tabled L (hsub L hL)

theorem Built.effect (h : t.Built allowed p) (c : LanguageCall) :
    t.Effect c (t.step c).1 (t.step c).2 :=
  effect_step (fun L hL => (h.registry L hL).2) c

theorem Built.hold (h : t.Built allowed p) {L : Language} {Ls : List Language}
    (hLs : Reached allowed t.workspace.registry Ls) (hsub : ∀ M ∈ t.languages, M ∈ Ls) (hmem : L ∈ Ls)
    (hL : p L.registry ∧ L.registry < t.workspace.registries.size) : (t.hold L).Built allowed p := by
  refine ⟨⟨Ls, hLs, fun M hM => ?_⟩, fun M hM => ?_⟩
  · rcases List.mem_append.1 hM with hM | hM
    · exact hsub M hM
    · rwa [List.mem_singleton.1 hM]
  · rcases List.mem_append.1 hM with hM | hM
    · exact h.registry M hM
    · rwa [List.mem_singleton.1 hM]

theorem Built.of_makes (h : t.Built allowed p) {L : Language} (hL : t.Makes c L)
    (hc : ∀ number, c = .empty number → p number)
    (hp : ∀ L M, p L.registry → p M.registry → allowed L M) : (t.hold L).Built allowed p := by
  obtain ⟨Ls, hreached, hsub⟩ := h.reached
  have hcons : ∀ N, ∀ M ∈ t.languages, M ∈ N :: Ls := fun N M hM =>
    List.mem_cons_of_mem N (hsub M hM)
  cases hL with
  | @empty number hlt =>
      exact h.hold (hreached.empty number) (hcons _) List.mem_cons_self ⟨hc number rfl, hlt⟩
  | clone hi =>
      have hmem := List.mem_of_getElem? hi
      exact h.hold hreached hsub (hsub _ hmem) (h.registry _ hmem)
  | @join i j L M hi hj =>
      have hL := List.mem_of_getElem? hi
      have hM := List.mem_of_getElem? hj
      have hallowed : allowed L M := hp L M (h.registry L hL).1 (h.registry M hM).1
      exact h.hold (hreached.join (hsub L hL) (hsub M hM) hallowed) (hcons _) List.mem_cons_self
        (h.registry L hL)

theorem Built.of_effect (h : t.Built allowed p) (he : t.Effect c r t')
    (hc : ∀ number, c = .empty number → p number)
    (hp : ∀ L M, p L.registry → p M.registry → allowed L M) : t'.Built allowed p := by
  obtain ⟨Ls, hreached, hsub⟩ := h.reached
  cases he with
  | missing => exact h
  | @opened w hw hsize =>
      refine ⟨⟨Ls, ?_, hsub⟩, fun L hL => ?_⟩
      · rwa [hw]
      · obtain ⟨hnumber, hlt⟩ := h.registry L hL
        exact ⟨hnumber, Nat.lt_of_lt_of_le hlt hsize⟩
  | made hL => exact h.of_makes hL hc hp
  | @added i L r w sorts hi hw hsize _ =>
      have hL := List.mem_of_getElem? hi
      obtain ⟨Ls', hreached', hsub', hmem⟩ := hreached.addAll sorts (hsub L hL)
      have hgrown := Language.grown_addAll (L := L) sorts (h.named L.registry)
      refine ⟨⟨Ls', ?_, fun M hM => ?_⟩, fun M hM => ?_⟩
      · rwa [hw]
      · rcases List.mem_or_eq_of_mem_set hM with hM | rfl
        · exact hsub' (hsub M hM)
        · exact hmem
      · change _ ∧ _ < w.registries.size
        rw [hsize]
        rcases List.mem_or_eq_of_mem_set hM with hM | rfl
        · exact h.registry M hM
        · rw [hgrown.registry]
          exact h.registry L hL
  | @offered number s w k hw hsize =>
      refine ⟨⟨Ls, ?_, hsub⟩, fun L hL => ?_⟩
      · rw [hw]
        exact hreached.offer number s
      · change _ ∧ _ < w.registries.size
        rw [hsize]
        exact h.registry L hL

theorem Built.run (h : t.Built allowed p) (calls : List LanguageCall)
    (hc : ∀ number, .empty number ∈ calls → p number)
    (hp : ∀ L M, p L.registry → p M.registry → allowed L M) : (t.run calls).Built allowed p := by
  induction calls generalizing t with
  | nil => exact h
  | cons c calls ih =>
      have hfirst : ∀ number, c = .empty number → p number := by
        rintro number rfl
        exact hc number List.mem_cons_self
      exact ih (h.of_effect (h.effect c) hfirst hp) fun number hmem =>
        hc number (List.mem_cons_of_mem c hmem)

/-- Every history builds languages. -/
theorem built (calls : List LanguageCall) :
    (run {} calls).Built (fun _ _ => True) fun _ => True :=
  Built.initial.run calls (fun _ _ => trivial) fun _ _ _ _ => trivial

/-- Where all languages consult one registry, languages that are joined do. -/
theorem built_of_registry {calls : List LanguageCall} {number : Nat}
    (h : ∀ m, .empty m ∈ calls → m = number) :
    (run {} calls).Built (fun L M => L.registry = M.registry) (· = number) :=
  Built.initial.run calls h fun _ _ hL hM => hL.trans hM.symm

/-! ### Growing -/

/-- The second session has the sorts that the registries of the first have, and the languages of the
first at their places, which may have been extended. -/
structure Grows (t t' : LanguageSession) : Prop where
  sorts : ∀ number, (t.workspace.registry number).Extends (t'.workspace.registry number)
  languages : ∀ {i : Nat} {L : Language}, t.languages[i]? = some L →
    ∃ L', t'.languages[i]? = some L' ∧ L.Extends L'

theorem Grows.refl (t : LanguageSession) : t.Grows t :=
  ⟨fun _ => .refl _, fun {_ L} hL => ⟨L, hL, .refl L⟩⟩

theorem extends_update {rs : Nat → Registry} {number : Nat} {r : Registry}
    (h : (rs number).Extends r) : ∀ m, (rs m).Extends (Function.update rs number r m) :=
  (Function.forall_update_iff rs fun m r' => (rs m).Extends r').2 ⟨h, fun m _ => .refl (rs m)⟩

theorem Effect.grows (he : t.Effect c r t')
    (hnamed : ∀ number, (t.workspace.registry number).Named) : t.Grows t' := by
  cases he with
  | missing => exact .refl t
  | @opened w hw _ =>
      refine ⟨fun number => ?_, (Grows.refl t).languages⟩
      change Registry.Extends _ (w.registry number)
      rw [hw]
      exact .refl _
  | made hL =>
      refine ⟨fun _ => .refl _, fun {i L} hi => ⟨L, ?_, .refl L⟩⟩
      obtain ⟨hlt, -⟩ := List.getElem?_eq_some_iff.1 hi
      exact (List.getElem?_append_left hlt).trans hi
  | @added i L r w sorts hi hw _ _ =>
      have hgrown := Language.grown_addAll (L := L) sorts (hnamed L.registry)
      refine ⟨fun number => ?_, fun {j M} hj => ?_⟩
      · change Registry.Extends _ (w.registry number)
        rw [hw]
        exact extends_update hgrown.sorts number
      · by_cases hij : i = j
        · subst hij
          obtain rfl := Option.some.inj (hi.symm.trans hj)
          obtain ⟨hlt, -⟩ := List.getElem?_eq_some_iff.1 hi
          exact ⟨_, List.getElem?_set_self hlt, hgrown.language⟩
        · exact ⟨M, (List.getElem?_set_ne hij).trans hj, .refl M⟩
  | @offered number s w k hw _ =>
      refine ⟨fun m => ?_, (Grows.refl t).languages⟩
      change Registry.Extends _ (w.registry m)
      rw [hw]
      exact extends_update (Registry.extends_canonical _ s) m

/-- Whatever is called, no sort and no constant is lost or replaced. -/
theorem Built.run_grows (h : t.Built (fun _ _ => True) fun _ => True) (calls : List LanguageCall) :
    t.Grows (t.run calls) := by
  induction calls generalizing t with
  | nil => exact .refl t
  | cons c calls ih =>
      have he := h.effect c
      have hfirst : t.Grows (t.step c).2 := he.grows h.named
      have hrest : (t.step c).2.Grows ((t.step c).2.run calls) :=
        ih (h.of_effect he (fun _ _ => trivial) fun _ _ _ _ => trivial)
      refine ⟨fun number => (hfirst.sorts number).trans (hrest.sorts number), fun hL => ?_⟩
      obtain ⟨L', hL', hext⟩ := hfirst.languages hL
      obtain ⟨L'', hL'', hext'⟩ := hrest.languages hL'
      exact ⟨L'', hL'', hext.trans hext'⟩

/-- Whatever is called next, the sort that a language gained is there with its constants. -/
theorem Built.exists_after_add (h : t.Built (fun _ _ => True) fun _ => True) {i : Nat}
    {L : Language} (hL : t.languages[i]? = some L) {s k : SortDef}
    (hk : ((t.workspace.registry L.registry).get? s.name).getD s = k)
    (hcheck : L.checkSort k = .ok ()) (next : List LanguageCall) :
    ∃ M, ((t.step (.add i s)).2.run next).languages[i]? = some M ∧ M.Tabled ∧
      (L.insert k).Extends M := by
  have hlt : i < t.languages.length := (List.getElem?_eq_some_iff.1 hL).1
  have hadded : (t.step (.add i s)).2.languages[i]? = some (L.insert k) := by
    rw [step_add_of_check hL (h.named _) hk hcheck]
    exact List.getElem?_set_self hlt
  have hbuilt : (t.step (.add i s)).2.Built (fun _ _ => True) fun _ => True :=
    h.run [.add i s] (fun _ _ => trivial) fun _ _ _ _ => trivial
  obtain ⟨M, hM, hext⟩ := (hbuilt.run_grows next).languages hadded
  have hnext := hbuilt.run next (fun _ _ => trivial) fun _ _ _ _ => trivial
  exact ⟨M, hM, hnext.tabled (List.mem_of_getElem? hM), hext⟩

end LanguageSession

end ManySorted
