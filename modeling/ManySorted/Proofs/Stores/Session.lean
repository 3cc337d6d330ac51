import ManySorted.Workspace
import ManySorted.Proofs.Stores.Rebuilding

/-!
Sessions: any number of stores and of terms that share nodes, made and used in any order. In every
session that is reached the cache of node ids is right about the nodes that are held, and the tables
of each store are inverse to each other.
-/

namespace ManySorted

/-- The terms and the stores that a program holds, and the workspace that they live in. -/
structure Session where
  workspace : Workspace := .initial
  terms : List Term := []
  stores : List Store := []

/-- What a program can do with terms and stores. It names those that it holds by their places. -/
inductive Call where
  | var (name : Name)
  | native (value : Value) (sort : SortName)
  | app (const : Const) (args : List Nat)
  /-- An argument of a term, which is the same node. -/
  | arg (term i : Nat)
  | newStore
  | store (store term : Nat)
  | intern (store : Nat) (t : StoredTerm)
  | rebuild (store id : Nat)

namespace Session

/-- Holds one term more; the answer is its place. -/
def hold (s : Session) (w : Workspace) (t : Term) : Outcome Nat × Session :=
  (.ok s.terms.length, { s with workspace := w, terms := s.terms ++ [t] })

/-- Places a new node and holds it. -/
def make (s : Session) (t : Term) : Outcome Nat × Session :=
  let (t, w) := (Workspace.place t).run s.workspace
  s.hold w t

/-- What a call answers, and the session after it. -/
def step (s : Session) : Call → Outcome Nat × Session
  | .var x => s.make (.var x)
  | .native v sort => s.make (.native v sort)
  | .app c args =>
    match args.mapM (itemAt s.terms) with
    | .ok ts => s.make (.app c ts)
    | .error f => (.error f, s)
  | .arg j i =>
    match itemAt s.terms j with
    | .ok t =>
      match t.arg i with
      | .ok u => s.hold s.workspace u
      | .error f => (.error f, s)
    | .error f => (.error f, s)
  | .newStore =>
    let (st, w) := Workspace.newStore.run s.workspace
    (.ok s.stores.length, { s with workspace := w, stores := s.stores ++ [st] })
  | .store k j =>
    match itemAt s.stores k, itemAt s.terms j with
    | .ok st, .ok t =>
      let ((r, st), w) := (Workspace.store st t).run s.workspace
      (r, { s with workspace := w, stores := s.stores.set k st })
    | .error f, _ | .ok _, .error f => (.error f, s)
  | .intern k t =>
    match itemAt s.stores k with
    | .ok st =>
      let (r, st) := st.intern t
      (r, { s with stores := s.stores.set k st })
    | .error f => (.error f, s)
  | .rebuild k id =>
    match itemAt s.stores k with
    | .ok st =>
      match (Workspace.rebuild st id).run s.workspace with
      | (.ok t, w) => s.hold w t
      | (.error f, w) => (.error f, { s with workspace := w })
    | .error f => (.error f, s)

def run (s : Session) : List Call → Session
  | [] => s
  | c :: calls => (s.step c).2.run calls

/-- A node of a term that is held. -/
def Holds (s : Session) (t : Term) : Prop := ∃ u ∈ s.terms, t.PartOf u

/-- Each label belongs to one node and each key to one store, the cache is right, and so are the
tables of the stores. -/
structure Valid (s : Session) : Prop where
  eq_of_label : ∀ {t u : Term} {l : Nat}, s.Holds t → s.Holds u → t.label = some l →
    u.label = some l → t = u
  labelled : ∀ {t : Term}, s.Holds t → ∃ l, t.label = some l ∧ l < s.workspace.label
  recorded : ∀ {l : Nat} {e : Nat × Nat}, s.workspace.cache[l]? = some e →
    l < s.workspace.label ∧ e.1 < s.workspace.key
  valid : ∀ {k : Nat} {st : Store}, s.stores[k]? = some st → st.Valid
  key_lt : ∀ {k : Nat} {st : Store}, s.stores[k]? = some st → st.key < s.workspace.key
  eq_of_key : ∀ {i j : Nat} {st st' : Store}, s.stores[i]? = some st → s.stores[j]? = some st' →
    st.key = st'.key → i = j
  sound : ∀ {k : Nat} {st : Store}, s.stores[k]? = some st → s.workspace.cache.Sound s.Holds st

variable {s : Session}

theorem Holds.of_getElem? {i : Nat} {t : Term} (ht : s.terms[i]? = some t) : s.Holds t :=
  ⟨t, List.mem_of_getElem? ht, .refl⟩

theorem Holds.partOf {v t : Term} (h : s.Holds t) (hv : v.PartOf t) : s.Holds v := by
  obtain ⟨u, hu, htu⟩ := h
  exact ⟨u, hu, hv.trans htu⟩

theorem Holds.arg {t u : Term} (hu : s.Holds u) (ht : t ∈ u.args) : s.Holds t :=
  hu.partOf (.arg ht .refl)

theorem Valid.nodes (h : s.Valid) : Term.Nodes s.Holds := ⟨Holds.arg, h.eq_of_label⟩

theorem Valid.initial : Valid {} := by
  constructor <;> simp [Holds, Workspace.initial]

end Session

end ManySorted
