import ManySorted.Fold.Size
import ManySorted.Proofs.Stores.Calls
import ManySorted.Proofs.Stores.Representation

/-!
Memos that are reused. One memo is passed from run to run of one fold over one store, while the
store grows and runs may stop with a fault. Its results stay right, since a store that grows keeps
the folds over the ids that it has (`Store.Extends.fold_eq`), and each run answers as it would with
an empty memo.
-/

namespace ManySorted

variable {ρ : Type}

theorem Shape.map_injective {κ α β : Type} {f : α → β} (hf : Function.Injective f) {n m : Shape κ α}
    (h : n.map f = m.map f) : n = m := by
  cases n <;> cases m <;> simp_all [Shape.map, List.map_inj_right, hf.eq_iff]

namespace Store

variable {s s' : Store} {F : Fold ρ}

/-! ### Growing -/

theorem Extends.node_eq (h : s.Extends s') {id : Nat} (hid : id < s.size) (hid' : id < s'.size) :
    s'.node id hid' = s.node id hid := by
  have hterm : s'.terms[id] = s.terms[id] := by
    have hget := h.terms (Array.getElem?_eq_getElem hid)
    rw [Array.getElem?_eq_getElem hid'] at hget
    exact Option.some.inj hget
  apply Shape.map_injective fun _ _ => Fin.eq_of_val_eq
  rw [s'.map_val_node, s.map_val_node, hterm]

theorem Extends.lt_size (h : s.Extends s') {id : Nat} (hid : id < s.size) : id < s'.size :=
  (Array.getElem?_eq_some_iff.1 (h.terms (Array.getElem?_eq_getElem hid))).1

/-- A store that grows keeps the folds over the ids that it has. -/
theorem Extends.fold_eq (h : s.Extends s') (F : Fold ρ) {id : Nat} (hid : id < s.size) :
    s'.fold F id = s.fold F id := by
  -- Cut off at the size of the smaller store, the folds of the larger one obey its equations.
  have hw : s.Solves F (fun _ r => r) (s.atId fun id _ => s'.fold F id) := by
    constructor
    · intro i hi
      rw [atId_of_lt hi, (s'.solves_fold F).node i (h.lt_size hi), h.node_eq hi]
      refine congrArg (fun n => (F.apply n).map fun r => r) (Shape.map_congr fun a _ => ?_)
      rw [atId_of_lt (Nat.lt_trans a.isLt hi)]
    · exact fun i hi => atId_of_le hi
  rw [hw.fold_eq id, atId_of_lt hid]

theorem lt_size_of_fold {id : Nat} {r : ρ} (h : s.fold F id = .ok r) : id < s.size := by
  apply Nat.lt_of_not_le
  intro hle
  rw [(s.solves_fold F).beyond id hle] at h
  cases h

theorem Extends.sound (h : s.Extends s') {p : Progress ρ} (hp : Sound (s.fold F) p) :
    Sound (s'.fold F) p := by
  intro i r hi
  have hr : s.fold F i = .ok r := hp i r hi
  rw [h.fold_eq F (lt_size_of_fold hr), hr]

end Store

/-! ### Sessions with a memo -/

/-- What a program does while it keeps a memo for one fold over one store. -/
inductive Request where
  | call (c : Call)
  | fold (id : Nat)

/-- A session, and a memo for its store with a number. -/
structure MemoSession (ρ : Type) where
  session : Session
  memo : Memo ρ := ∅

namespace MemoSession

def step (F : Fold ρ) (k : Nat) (t : MemoSession ρ) : Request → MemoSession ρ
  | .call c => { t with session := (t.session.step c).2 }
  | .fold id =>
    match t.session.stores[k]? with
    | some st => { t with memo := (st.foldWith F t.memo id).2 }
    | none => t

def run (F : Fold ρ) (k : Nat) (t : MemoSession ρ) : List Request → MemoSession ρ
  | [] => t
  | r :: requests => (t.step F k r).run F k requests

/-- The session is one that is reached, and the memo is right about its store. -/
structure Good (F : Fold ρ) (k : Nat) (t : MemoSession ρ) (st : Store) : Prop where
  valid : t.session.Valid
  store : t.session.stores[k]? = some st
  sound : Store.Sound (st.fold F) { memo := t.memo }

variable {F : Fold ρ} {k : Nat} {t : MemoSession ρ} {st : Store}

theorem Good.step (h : t.Good F k st) (r : Request) : ∃ st', st.Extends st' ∧
    (t.step F k r).Good F k st' ∧ t.memo.Within (t.step F k r).memo := by
  cases r with
  | call c =>
      have he := h.valid.effect c
      obtain ⟨st', hst', hext⟩ := he.extends_ h.store
      exact ⟨st', hext, ⟨h.valid.of_effect he, hst', hext.sound h.sound⟩, .refl _⟩
  | fold id =>
      obtain ⟨-, hsound, hwithin⟩ := Store.call_outcome h.sound id
      rw [MemoSession.step, h.store]
      exact ⟨st, .refl st, ⟨h.valid, h.store, hsound⟩, hwithin⟩

theorem Good.run (h : t.Good F k st) (requests : List Request) : ∃ st', st.Extends st' ∧
    (t.run F k requests).Good F k st' ∧ t.memo.Within (t.run F k requests).memo := by
  induction requests generalizing t st with
  | nil => exact ⟨st, .refl st, h, .refl _⟩
  | cons r requests ih =>
      obtain ⟨st', hext, hgood, hwithin⟩ := h.step r
      obtain ⟨st'', hext', hgood', hwithin'⟩ := ih hgood
      exact ⟨st'', hext.trans hext', hgood', hwithin.trans hwithin'⟩

/-- Whatever a program does while it keeps a memo, from an empty one on: the memo is sound, and no
result in it is lost or changed later. A further run answers as with an empty memo. If it returns,
it adds exactly the ids that it demands; if it stops with a fault, it adds the ids whose runs
finished, and its own is not among them. All through the run the memo is sound and only grows. -/
theorem memo_reused (F : Fold ρ) {calls : List Call} {k : Nat} {st₀ : Store}
    (hst₀ : (Session.run {} calls).stores[k]? = some st₀) (requests : List Request)
    {t : MemoSession ρ}
    (ht : ({ session := Session.run {} calls } : MemoSession ρ).run F k requests = t) :
    ∃ st, t.session.stores[k]? = some st ∧ st₀.Extends st ∧
    (∀ i r, t.memo[i]? = some r → st.fold F i = .ok r) ∧
    (∀ next, t.memo.Within (t.run F k next).memo) ∧
    ∀ id, (st.foldWith F t.memo id).1 = st.fold F id ∧
      (∀ r, st.fold F id = .ok r → ∀ j, j ∈ (st.foldWith F t.memo id).2 ↔
        j ∈ t.memo ∨ st.Demands F { memo := t.memo } id j) ∧
      (∀ f, st.fold F id = .error f → id ∉ (st.foldWith F t.memo id).2 ∧
        ∀ j, j ∈ (st.foldWith F t.memo id).2 ↔
          j ∈ t.memo ∨ st.Finishes F { memo := t.memo } id j) ∧
      ∀ q j, st.Calls F { memo := t.memo } id q j →
        (Store.Sound (st.fold F) q ∧ t.memo.Within q.memo) ∧
        (Store.Sound (st.fold F) ((st.call F j).run.run q).2 ∧
          q.memo.Within ((st.call F j).run.run q).2.memo) ∧
        ((st.call F j).run.run q).2.memo.Within (st.foldWith F t.memo id).2 := by
  have hstart : ({ session := Session.run {} calls } : MemoSession ρ).Good F k st₀ :=
    ⟨Session.Valid.initial.run calls, hst₀, Store.sound_empty _⟩
  obtain ⟨st, hext, hgood, -⟩ := hstart.run requests
  rw [ht] at hgood
  refine ⟨st, hgood.store, hext, hgood.sound, fun next => ?_, fun id => ⟨?_, ?_, ?_, ?_⟩⟩
  · obtain ⟨-, -, -, hwithin⟩ := hgood.run next
    exact hwithin
  · exact (Store.call_outcome hgood.sound id).1
  · intro r hr j
    rw [← Store.finishes_iff_demands hgood.sound hr]
    exact Store.mem_memo_call_iff hgood.sound id j
  · intro f hf
    exact ⟨Store.not_mem_memo_call hgood.sound hf, Store.mem_memo_call_iff hgood.sound id⟩
  · intro q j hcall
    exact hcall.moments hgood.sound

/-- A run over an id that is not there yet, and then a variable is stored. -/
def lateVariable : MemoSession Nat :=
  ({ session := Session.run {} [.newStore] } : MemoSession Nat).run Fold.size 0
    [.fold 0, .call (.intern 0 (.var "x"))]

theorem lateVariable_store : ∃ st, lateVariable.session.stores[0]? = some st ∧
    st.terms[0]? = some (.var "x") := by
  have hempty : (Session.run {} [.newStore]).stores[0]? = some (Store.empty 0) := rfl
  have hsession : lateVariable.session =
      ((Session.run {} [.newStore]).step (.intern 0 (.var "x"))).2 := rfl
  refine ⟨((Store.empty 0).intern (.var "x")).2, ?_, ?_⟩
  · rw [hsession, Session.step_intern hempty]
    rfl
  · rcases (Store.empty 0).intern_cases (.var "x") with
      ⟨id, hid, -⟩ | ⟨-, hargs, he⟩ | ⟨-, hargs, -⟩
    · simp [Store.empty, Store.idOf?] at hid
    · rw [he]
      rfl
    · exact absurd (by simp [Shape.args]) hargs

/-- The fault leaves nothing behind that would be in the way of a run over the stored variable. -/
theorem lateVariable_reused : ∃ st, lateVariable.session.stores[0]? = some st ∧
    (st.foldWith Fold.size lateVariable.memo 0).1 = .ok 1 ∧
    0 ∈ (st.foldWith Fold.size lateVariable.memo 0).2 := by
  have hempty : (Session.run {} [.newStore]).stores[0]? = some (Store.empty 0) := rfl
  obtain ⟨st, hst, -, -, -, hruns⟩ :=
    memo_reused Fold.size hempty [.fold 0, .call (.intern 0 (.var "x"))] rfl
  obtain ⟨st', hst', hvar⟩ := lateVariable_store
  obtain rfl : st' = st := Option.some.inj (hst'.symm.trans hst)
  have hnode : st'.fold Fold.size 0 = .ok 1 :=
    congrArg Prod.fst (Store.run_call_of_node (Store.sound_empty _) (by simp) hvar)
  obtain ⟨hsame, hadds, -⟩ := hruns 0
  exact ⟨st', hst', hsame.trans hnode, (hadds 1 hnode 0).2 (.inr ⟨_, .self _ 0⟩)⟩

end MemoSession

end ManySorted
