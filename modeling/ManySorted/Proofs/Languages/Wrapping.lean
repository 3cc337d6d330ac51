import Mathlib.Algebra.MvPolynomial.Eval
import Mathlib.Data.BitVec
import Mathlib.Data.Int.ModEq
import ManySorted.Proofs.Languages.Expressions
import ManySorted.Proofs.Languages.Substituting
import ManySorted.Proofs.Stores.Identity

/-!
Numbers of 64 bits as words, integers and polynomials. An expression in the operations of a ring has
a value in every commutative ring, and each homomorphism takes values to values. Words are such a
ring, so it does not matter how often a number is cut off on the way. Quotient and remainder are
those of the integers, but for the one quotient that is no number of 64 bits.
-/

namespace ManySorted

/-! ### Expressions of a ring -/

/-- The operation in a ring. -/
def Arithmetic.within {R : Type} [CommRing R] : Arithmetic → R → R → R
  | .plus, a, b => a + b
  | .minus, a, b => a - b
  | .mul, a, b => a * b

/-- Expressions in the operations of a ring. -/
inductive RingExpr where
  | lit (i : Int64)
  | var (x : Name)
  | uminus (d : RingExpr)
  | arithmetic (op : Arithmetic) (d e : RingExpr)

namespace RingExpr

variable {R S : Type} [CommRing R] [CommRing S]

/-- The value in a ring where the variables have given values. -/
def value (ρ : Name → R) : RingExpr → R
  | .lit i => i.toInt
  | .var x => ρ x
  | .uminus d => -d.value ρ
  | .arithmetic op d e => op.within (d.value ρ) (e.value ρ)

/-- The value over the integers, without bounds. -/
def exact (ν : Name → Int64) : RingExpr → Int := value fun x => (ν x).toInt

noncomputable def polynomial : RingExpr → MvPolynomial Name ℤ := value MvPolynomial.X

def term : RingExpr → Term
  | .lit i => Ints.lit i
  | .var x => .var x
  | .uminus d => Ints.uminus d.term
  | .arithmetic op d e => op.term d.term e.term

theorem map_value (h : R →+* S) (ρ : Name → R) (e : RingExpr) :
    h (e.value ρ) = e.value fun x => h (ρ x) := by
  induction e with
  | lit i => exact map_intCast h i.toInt
  | var x => rfl
  | uminus d ih => rw [value, map_neg, ih, value]
  | arithmetic op d e ihd ihe =>
      rw [value, value, ← ihd, ← ihe]
      cases op with
      | plus => exact map_add h _ _
      | minus => exact map_sub h _ _
      | mul => exact map_mul h _ _

/-- Expressions that are equal as polynomials have one value in each ring. -/
theorem value_eq_of_polynomial_eq {d e : RingExpr} (h : d.polynomial = e.polynomial)
    (ρ : Name → R) : d.value ρ = e.value ρ := by
  have heval : ∀ e : RingExpr,
      MvPolynomial.eval₂Hom (Int.castRingHom R) ρ e.polynomial = e.value ρ := by
    intro e
    rw [polynomial, map_value]
    simp only [MvPolynomial.coe_eval₂Hom, MvPolynomial.eval₂_X]
  rw [← heval d, h, heval]

end RingExpr

/-! ### Words -/

/-- The numbers that are congruent to an integer have the word that it is taken to. -/
theorem toInt_modEq_iff {n : Int64} {z : ℤ} :
    n.toInt ≡ z [ZMOD 2 ^ 64] ↔ n.toBitVec = (z : BitVec 64) := by
  have hcast : (z : BitVec 64).toInt = z.bmod (2 ^ 64) := BitVec.toInt_ofInt z
  have hword : n.toInt.bmod (2 ^ 64) = n.toInt := n.toInt_bmod
  rw [← BitVec.toInt_inj, hcast]
  constructor
  · intro h
    have hmod : n.toInt % ((2 ^ 64 : ℕ) : ℤ) = z % ((2 ^ 64 : ℕ) : ℤ) := h
    rw [← Int.emod_bmod (x := z), ← hmod, Int.emod_bmod]
    exact hword.symm
  · intro h
    have hmod : n.toInt = z.bmod (2 ^ 64) := h
    rw [hmod]
    exact Int.bmod_emod

theorem toBitVec_eq_cast (n : Int64) : n.toBitVec = (n.toInt : BitVec 64) :=
  toInt_modEq_iff.1 rfl

theorem Arithmetic.cast_of (op : Arithmetic) (a b : ℤ) :
    ((op.of a b : ℤ) : BitVec 64) = op.within (a : BitVec 64) (b : BitVec 64) := by
  cases op with
  | plus => exact Int.cast_add a b
  | minus => exact Int.cast_sub a b
  | mul => exact Int.cast_mul a b

namespace RingExpr

variable {L : Language} {V : ValueEnv} {ν : Name → Int64}

/-- A term that equals that of an expression comes to the value in the ring of words. -/
theorem exists_eval (hint : L.HoldsBuiltIn .int) (e : RingExpr) {t : Term}
    (ht : t.same e.term = true) (hV : ∀ x, e.term.HasVar x → V x = some (.int (ν x))) :
    ∃ n : Int64, L.eval V t = .ok (.int n) ∧ n.toBitVec = e.value fun x => (ν x).toBitVec := by
  induction e generalizing t with
  | lit i =>
      obtain ⟨l, rfl⟩ := Term.exists_of_same_native ht
      exact ⟨i, rfl, toBitVec_eq_cast i⟩
  | var x =>
      obtain ⟨l, rfl⟩ := Term.exists_of_same_var ht
      refine ⟨ν x, ?_, rfl⟩
      rw [Language.eval, Term.fold_var, Fold.eval_onVar, hV x ⟨_, .refl⟩]
      rfl
  | uminus d ih =>
      obtain ⟨name, ts, l, rfl, hargs⟩ := Term.exists_of_same_app ht
      obtain ⟨t, ts, rfl, hd, hnil⟩ := Term.exists_of_sameArgs_cons hargs
      obtain rfl := Term.eq_nil_of_sameArgs hnil
      obtain ⟨n, heval, hn⟩ := ih hd fun x hx => hV x (Term.hasVar_app_iff.2 ⟨_, .head _, hx⟩)
      exact ⟨-n, Language.eval_uminus hint heval, by rw [Int64.toBitVec_neg, hn, value]⟩
  | arithmetic op d e ihd ihe =>
      obtain ⟨opName, code, f, hterm, hop, hf⟩ := op.exists_operation d.term e.term
      rw [term, hterm] at ht hV
      obtain ⟨name, ts, l, rfl, hargs⟩ := Term.exists_of_same_app ht
      obtain ⟨t, ts, rfl, hd, hargs⟩ := Term.exists_of_sameArgs_cons hargs
      obtain ⟨u, ts, rfl, he, hnil⟩ := Term.exists_of_sameArgs_cons hargs
      obtain rfl := Term.eq_nil_of_sameArgs hnil
      obtain ⟨n, hevald, hn⟩ := ihd hd fun x hx =>
        hV x (Term.hasVar_app_iff.2 ⟨_, .head _, hx⟩)
      obtain ⟨m, hevale, hm⟩ := ihe he fun x hx =>
        hV x (Term.hasVar_app_iff.2 ⟨_, .tail _ (.head _), hx⟩)
      refine ⟨f n m, Language.eval_arithmetic hint hop hevald hevale, ?_⟩
      rw [value, ← hn, ← hm, toBitVec_eq_cast n, toBitVec_eq_cast m, ← op.cast_of, hf]
      rfl

/-- A number is congruent to the value over the integers if it is the value in the ring of words. -/
theorem modEq_exact_iff (ν : Name → Int64) (e : RingExpr) {n : Int64} :
    n.toInt ≡ e.exact ν [ZMOD 2 ^ 64] ↔ n.toBitVec = e.value fun x => (ν x).toBitVec := by
  have hcast : ((e.exact ν : ℤ) : BitVec 64) = e.value fun x => (ν x).toBitVec := by
    refine (e.map_value (Int.castRingHom (BitVec 64)) fun x => (ν x).toInt).trans ?_
    exact congrArg e.value (funext fun x => (toBitVec_eq_cast (ν x)).symm)
  rw [toInt_modEq_iff, hcast]

end RingExpr

namespace Session

/-- A term comes to a value as it is, and so does the id that it is stored under. -/
structure EvalsTo (s : Session) (st : Store) (L : Language) (V : ValueEnv) (t : Term)
    (v : Value) : Prop where
  tree : L.eval V t = .ok v
  stored : s.Knows t → ∃ id st' w, (Workspace.store st t).run s.workspace = ((.ok id, st'), w) ∧
    L.evalStored V st' id = .ok v

variable {s : Session} {L : Language} {V : ValueEnv}

theorem Valid.evalsTo (h : s.Valid) {k : Nat} {st : Store} (hst : s.stores[k]? = some st)
    {t : Term} {v : Value} (heval : ∀ u, u.same t = true → L.eval V u = .ok v) :
    s.EvalsTo st L V t v := by
  refine ⟨heval t (Term.same_refl t), fun ht => ?_⟩
  obtain ⟨id, st', w, hrun, hst', hfind⟩ := h.exists_store_of_knows hst ht
  exact ⟨id, st', w, hrun, Store.fold_eq_of_same hst' hfind heval⟩

/-- A term of ring operations comes, as it is and stored, to the one number that is congruent to its
value over the integers, wherever it was cut off on the way; so terms that are equal as polynomials
come to the same number. -/
theorem arithmetic_wraps_once (calls : List Call) {k : Nat} {st : Store}
    (hst : (run {} calls).stores[k]? = some st) {L : Language} (hint : L.HoldsBuiltIn .int) :
    (∀ (e : RingExpr) (t : Term) (V : ValueEnv) (ν : Name → Int64), t.same e.term = true →
      (∀ x, e.term.HasVar x → V x = some (.int (ν x))) →
      ∃ n : Int64, (∀ m : Int64, m.toInt ≡ e.exact ν [ZMOD 2 ^ 64] ↔ m = n) ∧
        (run {} calls).EvalsTo st L V t (.int n)) ∧
    ∀ (d e : RingExpr) (t u : Term) (V : ValueEnv) (ν : Name → Int64),
      d.polynomial = e.polynomial → t.same d.term = true → u.same e.term = true →
      (∀ x, d.term.HasVar x ∨ e.term.HasVar x → V x = some (.int (ν x))) →
      ∃ n : Int64, (run {} calls).EvalsTo st L V t (.int n) ∧
        (run {} calls).EvalsTo st L V u (.int n) := by
  have hvalid : (run {} calls).Valid := Valid.initial.run calls
  have hvalue : ∀ (e : RingExpr) (t : Term) (V : ValueEnv) (ν : Name → Int64),
      t.same e.term = true → (∀ x, e.term.HasVar x → V x = some (.int (ν x))) →
      ∃ n : Int64, n.toBitVec = (e.value fun x => (ν x).toBitVec) ∧
        (run {} calls).EvalsTo st L V t (.int n) := by
    intro e t V ν ht hV
    obtain ⟨n, -, hn⟩ := e.exists_eval hint ht hV
    refine ⟨n, hn, hvalid.evalsTo hst fun u hu => ?_⟩
    obtain ⟨m, heval, hm⟩ := e.exists_eval hint (Term.same_trans hu ht) hV
    rw [heval, Int64.toBitVec_inj.1 (hm.trans hn.symm)]
  refine ⟨fun e t V ν ht hV => ?_, fun d e t u V ν hde ht hu hV => ?_⟩
  · obtain ⟨n, hn, hevals⟩ := hvalue e t V ν ht hV
    refine ⟨n, fun m => ?_, hevals⟩
    rw [e.modEq_exact_iff, ← hn, Int64.toBitVec_inj]
  · obtain ⟨n, hn, hevals⟩ := hvalue d t V ν ht fun x hx => hV x (.inl hx)
    obtain ⟨m, hm, hevals'⟩ := hvalue e u V ν hu fun x hx => hV x (.inr hx)
    have hnm : n = m := by
      rw [← Int64.toBitVec_inj, hn, hm, RingExpr.value_eq_of_polynomial_eq hde]
    exact ⟨n, hevals, hnm ▸ hevals'⟩

/-- `(x + 1) * (x - 1)`. -/
def sumTimesDifference : RingExpr :=
  .arithmetic .mul (.arithmetic .plus (.var "x") (.lit 1)) (.arithmetic .minus (.var "x") (.lit 1))

/-- `x * x - 1`. -/
def squareMinusOne : RingExpr :=
  .arithmetic .minus (.arithmetic .mul (.var "x") (.var "x")) (.lit 1)

/-- The square of the least number is cut off, and so is one less than that number. -/
theorem sumTimesDifference_wraps_once : ∃ st, (run {} sharing).stores[0]? = some st ∧
    sumTimesDifference.exact (fun _ => .minValue) = 2 ^ 126 - 1 ∧
    (run {} sharing).EvalsTo st .standard (fun _ => some (.int .minValue))
      sumTimesDifference.term (.int (-1)) ∧
    (run {} sharing).EvalsTo st .standard (fun _ => some (.int .minValue))
      squareMinusOne.term (.int (-1)) := by
  obtain ⟨st, hst⟩ := exists_store_sharing
  obtain ⟨hexact, hequal⟩ :=
    arithmetic_wraps_once sharing hst (Language.standard_holdsBuiltIns .int)
  have hpolynomial : sumTimesDifference.polynomial = squareMinusOne.polynomial := by
    simp only [RingExpr.polynomial, sumTimesDifference, squareMinusOne, RingExpr.value,
      Arithmetic.within, Int64.toInt_one, Int.cast_one]
    ring
  obtain ⟨n, hn, htree⟩ := hexact sumTimesDifference sumTimesDifference.term
    (fun _ => some (.int .minValue)) (fun _ => .minValue) (Term.same_refl _) fun _ _ => rfl
  obtain ⟨m, htree', hsquare⟩ := hequal sumTimesDifference squareMinusOne sumTimesDifference.term
    squareMinusOne.term (fun _ => some (.int .minValue)) (fun _ => .minValue) hpolynomial
    (Term.same_refl _) (Term.same_refl _) fun _ _ => rfl
  have hnumber : -1 = n := (hn (-1)).1 rfl
  have hsame : m = n := Value.int.inj (Except.ok.inj (htree'.tree.symm.trans htree.tree))
  subst hnumber hsame
  exact ⟨st, hst, rfl, htree, hsquare⟩

end Session

/-! ### Division -/

namespace Language

variable {L : Language} {V : ValueEnv} {x y : Term} {a b : Int64}

theorem eval_arithmetic_term (hint : L.HoldsBuiltIn .int) (op : Arithmetic)
    (hx : L.eval V x = .ok (.int a)) (hy : L.eval V y = .ok (.int b)) :
    L.eval V (op.term x y) = .ok (.int (.ofInt (op.of a.toInt b.toInt))) := by
  obtain ⟨name, code, f, hterm, hop, hf⟩ := op.exists_operation x y
  rw [hterm, eval_arithmetic hint hop hx hy, hf]

theorem eval_division_term (hint : L.HoldsBuiltIn .int) (op : Division)
    (hx : L.eval V x = .ok (.int a)) (hy : L.eval V y = .ok (.int b)) :
    L.eval V (op.term x y) =
      if b = 0 then .error op.fault else .ok (.int (.ofInt (op.of a.toInt b.toInt))) := by
  obtain ⟨name, code, f, hterm, hop, hf⟩ := op.exists_operation x y
  rw [hterm, eval_division hint hop hx hy, hf]

theorem eval_division_term_eq_error_iff (hint : L.HoldsBuiltIn .int) (op : Division)
    (hx : L.eval V x = .ok (.int a)) (hy : L.eval V y = .ok (.int b)) {f : Fault} :
    L.eval V (op.term x y) = .error f ↔ b = 0 ∧ op.fault = f := by
  rw [eval_division_term hint op hx hy]
  split
  next hb => simp [hb]
  next hb => simp [hb]

/-- Quotient and remainder give the first number back, also where the quotient is cut off. -/
theorem ofInt_quotient_remainder (a b : Int64) :
    Int64.ofInt ((Int64.ofInt ((Int64.ofInt (a.toInt.tdiv b.toInt)).toInt * b.toInt)).toInt +
      (Int64.ofInt (a.toInt.tmod b.toInt)).toInt) = a := by
  rw [Int64.ofInt_add, Int64.ofInt_toInt, Int64.ofInt_toInt, Int64.ofInt_mul, Int64.ofInt_toInt,
    ← Int64.ofInt_mul, ← Int64.ofInt_add, Int.tdiv_mul_add_tmod, Int64.ofInt_toInt]

theorem toInt_ofInt_tdiv (h : ¬ (a = .minValue ∧ b = -1)) :
    (Int64.ofInt (a.toInt.tdiv b.toInt)).toInt = a.toInt.tdiv b.toInt := by
  have hdiv : Int64.ofInt (a.toInt.tdiv b.toInt) = a / b := by
    apply Int64.toInt_inj.1
    rw [Int64.toInt_div, Int64.toInt_ofInt]
  rw [hdiv]
  by_cases ha : a = .minValue
  · exact Int64.toInt_div_of_ne_right a b fun hb => h ⟨ha, hb⟩
  · exact Int64.toInt_div_of_ne_left a b ha

theorem toInt_ofInt_tmod (a b : Int64) :
    (Int64.ofInt (a.toInt.tmod b.toInt)).toInt = a.toInt.tmod b.toInt := by
  rw [← Int64.toInt_mod, Int64.ofInt_toInt]

/-- The remainder is zero or has the sign of the first number. -/
theorem sign_tmod_eq (a b : ℤ) : a.tmod b = 0 ∨ (a.tmod b).sign = a.sign := by
  by_cases h : a.tmod b = 0
  · exact .inl h
  · right
    rw [Int.sign_tmod, if_neg fun hdvd => h (Int.dvd_iff_tmod_eq_zero.1 hdvd)]

/-- Quotient and remainder of the numbers that two terms come to: there are none exactly for the
divisor zero, and otherwise they give the first number back, the remainder being smaller than the
divisor and never of the other sign; the quotient is cut off toward zero, but for the one that does
not fit. -/
theorem quotient_remainder (hint : L.HoldsBuiltIn .int)
    (hx : L.eval V x = .ok (.int a)) (hy : L.eval V y = .ok (.int b)) :
    (∀ f, L.eval V (Ints.div x y) = .error f ↔ b = 0 ∧ .divisionByZero = f) ∧
    (∀ f, L.eval V (Ints.mod x y) = .error f ↔ b = 0 ∧ .remainderByZero = f) ∧
    (b ≠ 0 → ∃ q r : Int64, L.eval V (Ints.div x y) = .ok (.int q) ∧
      L.eval V (Ints.mod x y) = .ok (.int r) ∧
      L.eval V (Ints.plus (Ints.mul (Ints.div x y) y) (Ints.mod x y)) = .ok (.int a) ∧
      |r.toInt| < |b.toInt| ∧ (r.toInt = 0 ∨ r.toInt.sign = a.toInt.sign) ∧
      (¬ (a = .minValue ∧ b = -1) → q.toInt = a.toInt.tdiv b.toInt) ∧
      (a = .minValue ∧ b = -1 → q = .minValue)) := by
  refine ⟨fun f => eval_division_term_eq_error_iff hint .quotient hx hy,
    fun f => eval_division_term_eq_error_iff hint .remainder hx hy, fun hb => ?_⟩
  have hdiv : L.eval V (Ints.div x y) = .ok (.int (.ofInt (a.toInt.tdiv b.toInt))) :=
    (eval_division_term hint .quotient hx hy).trans (if_neg hb)
  have hmod : L.eval V (Ints.mod x y) = .ok (.int (.ofInt (a.toInt.tmod b.toInt))) :=
    (eval_division_term hint .remainder hx hy).trans (if_neg hb)
  refine ⟨_, _, hdiv, hmod, ?_, ?_, ?_, toInt_ofInt_tdiv, ?_⟩
  · have hmul := eval_arithmetic_term hint .mul hdiv hy
    refine (eval_arithmetic_term hint .plus hmul hmod).trans ?_
    exact congrArg (fun n => Except.ok (Value.int n)) (ofInt_quotient_remainder a b)
  · have hpos : 0 < b.toInt.natAbs := Int.natAbs_pos.2 fun h => hb (Int64.toInt_inj.1 h)
    rw [toInt_ofInt_tmod, Int.abs_eq_natAbs, Int.abs_eq_natAbs, Int.natAbs_tmod, Int.ofNat_lt]
    exact Nat.mod_lt _ hpos
  · rw [toInt_ofInt_tmod]
    exact sign_tmod_eq a.toInt b.toInt
  · rintro ⟨rfl, rfl⟩
    rfl

/-- The quotient that does not fit, and one that is cut off toward zero. -/
theorem minValue_quotient_remainder :
    standard.eval (fun _ => none) (Ints.div (Ints.lit .minValue) (Ints.lit (-1))) =
      .ok (.int .minValue) ∧
    standard.eval (fun _ => none) (Ints.plus (Ints.mul
      (Ints.div (Ints.lit .minValue) (Ints.lit (-1))) (Ints.lit (-1)))
      (Ints.mod (Ints.lit .minValue) (Ints.lit (-1)))) = .ok (.int .minValue) ∧
    standard.eval (fun _ => none) (Ints.div (Ints.lit (-7)) (Ints.lit 2)) = .ok (.int (-3)) := by
  have hint := standard_holdsBuiltIns .int
  obtain ⟨-, -, hleast⟩ := quotient_remainder (V := fun _ => none) (x := Ints.lit .minValue)
    (y := Ints.lit (-1)) hint rfl rfl
  obtain ⟨q, r, hq, -, hsum, -, -, -, hcut⟩ := hleast (by decide)
  obtain ⟨-, -, hseven⟩ := quotient_remainder (V := fun _ => none) (x := Ints.lit (-7))
    (y := Ints.lit 2) hint rfl rfl
  obtain ⟨q', r', hq', -, -, -, -, hexact, -⟩ := hseven (by decide)
  have hleast' : q = .minValue := hcut ⟨rfl, rfl⟩
  have hthree : q' = -3 := Int64.toInt_inj.1 (hexact (by decide))
  refine ⟨?_, hsum, ?_⟩
  · rw [hq, hleast']
  · rw [hq', hthree]

end Language

end ManySorted
