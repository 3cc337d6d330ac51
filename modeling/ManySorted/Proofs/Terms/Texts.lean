import ManySorted.Proofs.Terms.Positions
import ManySorted.Proofs.Terms.Subterms
import ManySorted.Proofs.Terms.Variables

/-!
The texts of equal terms. They differ by the texts of constants and by nothing else: at every
position of two equal terms the texts are the same exactly if the constants are shown alike
(`showsAlike_iff`).
-/

namespace ManySorted.Term

variable {t u : Term}

/-- The constant at the top of a term. -/
def const? : Term → Option Const
  | .app c _ _ => some c
  | _ => none

theorem const?_withLabel (t : Term) (l : Nat) : (t.withLabel l).const? = t.const? := by
  cases t with
  | var x m => cases m <;> rfl
  | native v s m => cases m <;> rfl
  | app c ts m => cases m <;> rfl

/-- A constant occurs in a term. -/
def HasConst (t : Term) (c : Const) : Prop := ∃ v : Term, v.PartOf t ∧ v.const? = some c

theorem hasConst_iff {c : Const} : t.HasConst c ↔ c ∈ t.subterms.filterMap const? := by
  simp only [HasConst, List.mem_filterMap, mem_subterms_iff]

/-- At each position the constants of two terms have one text. -/
def ShowsAlike (t u : Term) : Prop := ∀ p v w, t.at? p = some v → u.at? p = some w →
  v.const?.map Const.text = w.const?.map Const.text

theorem key_const?_of_same (h : t.same u = true) :
    t.const?.map Const.key = u.const?.map Const.key := by
  cases t with
  | app c ts l =>
      cases u with
      | app d us m =>
          rw [same, Bool.and_eq_true, Const.beq_iff] at h
          exact congrArg some h.1
      | _ => cases h
  | _ =>
      cases u with
      | app d us m => cases h
      | _ => rfl

theorem ShowsAlike.at? (h : t.ShowsAlike u) {p : Path} {v w : Term} (hv : t.at? p = some v)
    (hw : u.at? p = some w) : v.ShowsAlike w := by
  intro q v' w' hv' hw'
  apply h (q ++ p) v' w'
  · rw [at?_append, hv, Option.bind_some, hv']
  · rw [at?_append, hw, Option.bind_some, hw']

/-- The text of an application is that of its constant and those of its arguments. -/
theorem text_app {c : Const} {ts : List Term} {l : Option Nat} {texts : List String}
    (h : ts.map text = texts.map .ok) : (app c ts l).text =
      .ok (c.text ++ if ts.length = 0 then "" else "(" ++ ",".intercalate texts ++ ")") := by
  have hargs : (Demand.args ts.length).resolve
      (fun i => itemAt ts i >>= fun t => t.fold Fold.render) = .ok texts := Fold.resolve_args h
  rw [text, fold_app]
  change ((Demand.args ts.length).bind _).resolve _ = _
  rw [Demand.resolve_bind, hargs]
  change Except.ok (if ts.length = 0 then _ else _) = _
  split
  next => rw [String.append_empty]
  next => rw [String.append_assoc, String.append_assoc, String.append_assoc]

theorem map_text_args (h : t.same u = true)
    (hargs : ∀ (i : Nat) (v w : Term), t.args[i]? = some v → u.args[i]? = some w →
      v.text = w.text) :
    t.args.map text = u.args.map text := by
  obtain ⟨hlen, -⟩ := sameArgs_iff.1 (sameArgs_args h)
  refine List.ext_getElem (by rw [List.length_map, List.length_map, hlen]) fun i hi hi' => ?_
  rw [List.length_map] at hi hi'
  rw [List.getElem_map, List.getElem_map]
  exact hargs i _ _ (List.getElem?_eq_getElem hi) (List.getElem?_eq_getElem hi')

/-- Equal terms whose arguments have the same texts have one text exactly if their constants have. -/
theorem text_eq_iff (h : t.same u = true) (hargs : t.args.map text = u.args.map text) :
    t.text = u.text ↔ t.const?.map Const.text = u.const?.map Const.text := by
  cases t with
  | var x l =>
      cases u with
      | var y m =>
          obtain rfl : x = y := by simpa [same] using h
          exact iff_of_true rfl rfl
      | _ => cases h
  | native v s l =>
      cases u with
      | native w r m =>
          obtain ⟨rfl, rfl⟩ : v = w ∧ s = r := by simpa [same] using h
          exact iff_of_true rfl rfl
      | _ => cases h
  | app c ts l =>
      cases u with
      | app d us m =>
          have htexts : ts.map text = us.map text := hargs
          have hlen : ts.length = us.length := by simpa using congrArg List.length htexts
          obtain ⟨texts, hts, -⟩ := Fold.exists_args fun t (_ : t ∈ ts) => t.exists_text
          have hus : us.map text = texts.map .ok := htexts.symm.trans hts
          rw [text_app hts, text_app hus, hlen, Except.ok.injEq, String.append_left_inj]
          exact Option.some_inj.symm
      | _ => cases h

theorem text_eq_of_showsAlike (t u : Term) (h : t.same u = true) (halike : t.ShowsAlike u) :
    t.text = u.text := by
  refine (text_eq_iff h (map_text_args h fun i v w hv hw => ?_)).2 (halike [] t u rfl rfl)
  obtain ⟨-, hargs⟩ := sameArgs_iff.1 (sameArgs_args h)
  exact text_eq_of_showsAlike v w (hargs i v w hv hw) (halike.at? (p := [i]) hv hw)
termination_by t.subterms.length
decreasing_by exact length_subterms_lt (List.mem_of_getElem? hv)

/-- Equal terms have the same texts at all positions exactly if they show their constants alike. -/
theorem showsAlike_iff (h : t.same u = true) : t.ShowsAlike u ↔
    ∀ p v w, t.at? p = some v → u.at? p = some w → v.text = w.text := by
  have hsame : ∀ p v w, t.at? p = some v → u.at? p = some w → v.same w = true := by
    intro p v w hv hw
    obtain ⟨w', hw', hvw⟩ := exists_at?_of_same h hv
    rwa [Option.some.inj (hw.symm.trans hw')]
  constructor
  · intro halike p v w hv hw
    exact text_eq_of_showsAlike v w (hsame p v w hv hw) (halike.at? hv hw)
  · intro htexts p v w hv hw
    refine (text_eq_iff (hsame p v w hv hw) (map_text_args (hsame p v w hv hw) ?_)).1
      (htexts p v w hv hw)
    intro i v' w' hv' hw'
    apply htexts (i :: p) v' w'
    · rw [at?, hv, Option.bind_some, hv']
    · rw [at?, hw, Option.bind_some, hw']

end ManySorted.Term
