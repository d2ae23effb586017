import Mathlib.Data.List.Nodup

/-!
# Binding the parameters of a macro

The arguments of a call are positional ones followed by keyword arguments.  `bind_parameters`
chooses between an argument and the default by the number of all arguments, so a parameter whose
default should be used may be left undefined, and a keyword argument may be dropped.  It binds as
the call means if and only if the keyword arguments name the parameters that come next
(`boundRight_iff`).
-/

namespace Llama.Jinja

open List

variable {V D : Type}

/-- A parameter of a macro; `D` holds the expressions of defaults. -/
structure Parameter (D : Type) where
  name : String
  default : Option D

/-- An argument of a call; the value `none` is undefined. -/
inductive Argument (V : Type) where
  | pos (v : Option V)
  | kwarg (key : String) (v : Option V)

/-- What a parameter is set to. -/
inductive Bound (V D : Type) where
  | value (v : Option V)
  | default (d : D)
  deriving DecidableEq

/-- `func_args::get_kwarg`. -/
def getKwarg (key : String) (defaultVal : Option V) : List (Argument V) → Option V
  | [] => defaultVal
  | .pos _ :: args => getKwarg key defaultVal args
  | .kwarg k v :: args => if k = key then v else getKwarg key defaultVal args

/-- `func_args::get_kwarg_or_pos`. -/
def getKwargOrPos (args : List (Argument V)) (key : String) (pos : ℕ) : Option V :=
  match getKwarg key none args, args[pos]? with
  | none, some (.pos v) => v
  | val, _ => val

/-- The body of the loop of `bind_parameters`. -/
def bindAt (name : String) (args : List (Argument V)) (param : Parameter D) (i : ℕ) :
    Except String (String × Bound V D) :=
  if i < args.length then .ok (param.name, .value (getKwargOrPos args param.name i))
  else match param.default with
    | some d => .ok (param.name, .default d)
    | none => .error ("Not enough arguments provided to '" ++ name ++ "'")

/-- `bind_parameters`, from the parameter `i` on. -/
def bindFrom (name : String) (args : List (Argument V)) :
    List (Parameter D) → ℕ → Except String (List (String × Bound V D))
  | [], _ => .ok []
  | param :: params, i => do
    let b ← bindAt name args param i
    return b :: (← bindFrom name args params (i + 1))

/-! ### What a call means -/

/-- The arguments of a call. -/
def callArgs (pos : List (Option V)) (kws : List (String × Option V)) : List (Argument V) :=
  pos.map .pos ++ kws.map fun kw => .kwarg kw.1 kw.2

/-- The positional argument, else the keyword argument, else the default. -/
def meant (pos : List (Option V)) (kws : List (String × Option V)) (param : Parameter D) (i : ℕ) :
    Option (Bound V D) :=
  ((pos[i]? <|> kws.lookup param.name).map .value) <|> param.default.map .default

/-- Every parameter is bound as the call means and no argument is dropped, or there is an error and
a parameter without a value. -/
def BoundRight (name : String) (params : List (Parameter D)) (pos : List (Option V))
    (kws : List (String × Option V)) : Prop :=
  match bindFrom name (callArgs pos kws) params 0 with
  | .ok bs => bs.length = params.length ∧
      (∀ i param, params[i]? = some param →
        ∃ b, meant pos kws param i = some b ∧ bs[i]? = some (param.name, b)) ∧
      (∀ (i : ℕ) v, pos[i]? = some v → ∃ key, bs[i]? = some (key, .value v)) ∧
      ∀ kw ∈ kws, (kw.1, .value kw.2) ∈ bs
  | .error _ => ∃ i param, params[i]? = some param ∧ meant pos kws param i = none

/-- The keyword arguments name the parameters after the positional ones, or both the code and the
call miss a required parameter. -/
def NamesNext (params : List (Parameter D)) (pos : List (Option V))
    (kws : List (String × Option V)) : Prop :=
  pos.length ≤ params.length ∧
    ((∀ i param, params[i]? = some param → pos.length ≤ i →
      (param.name ∈ kws.map Prod.fst ↔ i < pos.length + kws.length)) ∨
    (∃ i param, params[i]? = some param ∧ param.default = none ∧ pos.length + kws.length ≤ i) ∧
      ∃ i param, params[i]? = some param ∧ param.default = none ∧ pos.length ≤ i ∧
        param.name ∉ kws.map Prod.fst)

section

variable {name : String} {params : List (Parameter D)} {pos : List (Option V)}
  {kws : List (String × Option V)} {param : Parameter D} {i : ℕ}

lemma bindFrom_cases (name : String) (args : List (Argument V)) (params : List (Parameter D))
    (i : ℕ) :
    match bindFrom name args params i with
    | .ok bs => bs.length = params.length ∧ ∀ j param, params[j]? = some param →
        ∃ b, bindAt name args param (i + j) = .ok b ∧ bs[j]? = some b
    | .error e => ∃ j param, params[j]? = some param ∧ bindAt name args param (i + j) = .error e := by
  induction params generalizing i with
  | nil => simp [bindFrom]
  | cons param params ih =>
    specialize ih (i + 1)
    unfold bindFrom
    cases hb : bindAt name args param i with
    | error e => exact ⟨0, param, rfl, hb⟩
    | ok b =>
      simp only [Nat.add_assoc, Nat.add_comm 1] at ih
      cases hr : bindFrom name args params (i + 1) with
      | error e =>
        obtain ⟨j, param', hj, he⟩ := hr ▸ ih
        exact ⟨j + 1, param', hj, he⟩
      | ok bs =>
        obtain ⟨hl, hbs⟩ := hr ▸ ih
        refine ⟨congrArg (· + 1) hl, fun j param' hj => ?_⟩
        cases j with
        | zero => exact ⟨b, Option.some.inj hj ▸ hb, rfl⟩
        | succ j => exact hbs j param' hj

lemma getKwarg_callArgs (key : String) :
    getKwarg key none (callArgs pos kws) = (kws.lookup key).getD none := by
  unfold callArgs
  induction pos with
  | cons v pos ih => exact ih
  | nil =>
    induction kws with
    | nil => rfl
    | cons kw kws ih =>
      obtain ⟨k, v⟩ := kw
      by_cases h : k = key
      · simp [getKwarg, h]
      · simpa [getKwarg, h, lookup_cons, beq_eq_false_iff_ne.2 (Ne.symm h)] using ih

lemma lookup_eq_none {key : String} : kws.lookup key = none ↔ key ∉ kws.map Prod.fst := by
  rw [lookup_eq_none_iff, mem_map]
  simp only [bne_iff_ne, not_exists, not_and, ne_comm (a := key), ne_eq]

lemma lookup_eq_of_mem (hkeys : (kws.map Prod.fst).Nodup) {kw : String × Option V} (h : kw ∈ kws) :
    kws.lookup kw.1 = some kw.2 := by
  obtain ⟨l, r, rfl⟩ := append_of_mem h
  refine lookup_eq_some_iff.2 ⟨l, r, rfl, fun p hp => bne_iff_ne.2 fun he => ?_⟩
  rw [map_append, nodup_append] at hkeys
  exact hkeys.2.2 _ (mem_map_of_mem hp) _ mem_cons_self he.symm

lemma getKwargOrPos_callArgs {key : String} (h : i < pos.length → key ∉ kws.map Prod.fst) :
    getKwargOrPos (callArgs pos kws) key i = ((pos[i]? <|> kws.lookup key).getD none) := by
  unfold getKwargOrPos
  rw [getKwarg_callArgs]
  by_cases hi : i < pos.length
  · simp [lookup_eq_none.2 (h hi), callArgs, getElem?_append, hi]
  · rcases hl : kws.lookup key with _ | v <;>
      rcases hk : kws[i - pos.length]? <;> simp [callArgs, getElem?_append, hi, hk]

lemma bindAt_positional (h : param.name ∉ kws.map Prod.fst) (hi : i < pos.length) :
    ∃ b, meant pos kws param i = some b ∧
      bindAt name (callArgs pos kws) param i = .ok (param.name, b) := by
  refine ⟨.value pos[i], by simp [meant, hi], ?_⟩
  simp only [bindAt, getKwargOrPos_callArgs fun _ => h]
  simp [callArgs, Nat.lt_add_right _ hi, hi]

lemma bindAt_keyword_iff (hi : pos.length ≤ i) :
    (∃ b, meant pos kws param i = some b ∧
      bindAt name (callArgs pos kws) param i = .ok (param.name, b)) ↔
      (param.name ∈ kws.map Prod.fst ↔ i < pos.length + kws.length) ∧
        (param.default = none → param.name ∈ kws.map Prod.fst) := by
  have hn : param.name ∈ kws.map Prod.fst ↔ kws.lookup param.name ≠ none := by
    rw [ne_eq, lookup_eq_none, not_not]
  simp only [hn, meant, bindAt, getElem?_eq_none hi,
    getKwargOrPos_callArgs fun h : i < pos.length => absurd h (Nat.not_lt.2 hi)]
  cases kws.lookup param.name <;> cases param.default <;> simp [callArgs]

lemma bindAt_ok_iff {args : List (Argument V)} :
    (∃ b, bindAt name args param i = .ok b) ↔ (param.default = none → i < args.length) := by
  unfold bindAt
  by_cases hi : i < args.length <;> cases param.default <;> simp [hi]

lemma meant_eq_none : meant pos kws param i = none ↔
    pos.length ≤ i ∧ param.name ∉ kws.map Prod.fst ∧ param.default = none := by
  rw [← lookup_eq_none]
  simp [meant, and_assoc]

/-- `bind_parameters` binds every argument where the call means it exactly when the keyword
arguments name the parameters that come next. -/
theorem boundRight_iff (name : String) (params : List (Parameter D)) (pos : List (Option V))
    (kws : List (String × Option V)) (hkeys : (kws.map Prod.fst).Nodup)
    (hnamed : ∀ key ∈ kws.map Prod.fst, key ∈ params.map (·.name) ∧
      key ∉ (params.take pos.length).map (·.name)) :
    BoundRight name params pos kws ↔ NamesNext params pos kws := by
  have hfree : ∀ i param, params[i]? = some param → i < pos.length →
      param.name ∉ kws.map Prod.fst := fun i param hp hi hk =>
    (hnamed _ hk).2 (mem_map_of_mem (mem_of_getElem? (by rwa [getElem?_take_of_lt hi])))
  have hargs : (callArgs pos kws).length = pos.length + kws.length := by simp [callArgs]
  have hcode := bindFrom_cases name (callArgs pos kws) params 0
  simp only [Nat.zero_add] at hcode
  unfold BoundRight
  cases hb : bindFrom name (callArgs pos kws) params 0 with
  | ok bs =>
    rw [hb] at hcode
    obtain ⟨hl, hbs⟩ := hcode
    have hreq : ∀ i param, params[i]? = some param → param.default = none →
        i < pos.length + kws.length := fun i param hp =>
      hargs ▸ bindAt_ok_iff.1 ((hbs i param hp).imp fun _ h => h.1)
    constructor
    · rintro ⟨-, hr, hpos, -⟩
      refine ⟨Nat.not_lt.1 fun hlt => ?_, .inl fun i param hp hi => ?_⟩
      · obtain ⟨key, hk⟩ := hpos _ _ (getElem?_eq_getElem hlt)
        rw [getElem?_eq_none (Nat.le_of_eq hl)] at hk
        cases hk
      · obtain ⟨b, hm, hbi⟩ := hr i param hp
        obtain ⟨_, hc, hbi'⟩ := hbs i param hp
        obtain rfl := Option.some.inj (hbi.symm.trans hbi')
        exact (bindAt_keyword_iff hi).1 ⟨b, hm, hc⟩ |>.1
    · rintro ⟨hle, hnext | ⟨⟨i, param, hp, hd, hi⟩, -⟩⟩
      · have hr : ∀ i param, params[i]? = some param →
            ∃ b, meant pos kws param i = some b ∧ bs[i]? = some (param.name, b) := by
          intro i param hp
          have : ∃ b, meant pos kws param i = some b ∧
              bindAt name (callArgs pos kws) param i = .ok (param.name, b) := by
            rcases Nat.lt_or_ge i pos.length with hi | hi
            · exact bindAt_positional (hfree i param hp hi) hi
            · exact (bindAt_keyword_iff hi).2 ⟨hnext i param hp hi, fun hd =>
                (hnext i param hp hi).2 (hreq i param hp hd)⟩
          obtain ⟨b, hm, hc⟩ := this
          obtain ⟨_, hc', hbi⟩ := hbs i param hp
          exact ⟨b, hm, Except.ok.inj (hc.symm.trans hc') ▸ hbi⟩
        refine ⟨hl, hr, fun i v hv => ?_, fun kw hkw => ?_⟩
        · have hi := Nat.lt_of_lt_of_le (List.getElem?_eq_some_iff.1 hv).1 hle
          obtain ⟨b, hm, hbi⟩ := hr i _ (getElem?_eq_getElem hi)
          simp only [meant, hv] at hm
          cases hm
          exact ⟨_, hbi⟩
        · obtain ⟨param, hmem, hname⟩ := mem_map.1 (hnamed _ (mem_map_of_mem hkw)).1
          obtain ⟨i, hp⟩ := getElem?_of_mem hmem
          obtain ⟨b, hm, hbi⟩ := hr i param hp
          have hi : pos.length ≤ i := Nat.not_lt.1 fun hi =>
            hfree i param hp hi (hname ▸ mem_map_of_mem hkw)
          have hlook := hname ▸ lookup_eq_of_mem hkeys hkw
          simp only [meant, getElem?_eq_none hi, hlook] at hm
          cases hm
          exact hname ▸ mem_of_getElem? hbi
      · exact absurd (hreq i param hp hd) (Nat.not_lt.2 hi)
  | error e =>
    rw [hb] at hcode
    obtain ⟨i, param, hp, he⟩ := hcode
    have herr : ¬ (param.default = none → i < (callArgs pos kws).length) :=
      bindAt_ok_iff.not.1 fun ⟨_, h⟩ => Except.noConfusion rfl rfl (heq_of_eq (he.symm.trans h))
    rw [hargs, Classical.not_imp, Nat.not_lt] at herr
    obtain ⟨hd, hi⟩ := herr
    constructor
    · rintro ⟨j, param', hp', hm⟩
      obtain ⟨hj, hn, hd'⟩ := meant_eq_none.1 hm
      have := (List.getElem?_eq_some_iff.1 hp).1
      exact ⟨by omega, .inr ⟨⟨i, param, hp, hd, hi⟩, j, param', hp', hd', hj, hn⟩⟩
    · rintro ⟨-, hnext | ⟨-, j, param', hp', hd', hj, hn⟩⟩
      · have hpi := Nat.le_trans (Nat.le_add_right _ _) hi
        exact ⟨i, param, hp, meant_eq_none.2
          ⟨hpi, fun hn => Nat.not_lt.2 hi ((hnext i param hp hpi).1 hn), hd⟩⟩
      · exact ⟨j, param', hp', meant_eq_none.2 ⟨hj, hn, hd'⟩⟩

/-- The call `f(1, 2)` of a macro with the parameters `a` and `b`. -/
theorem boundRight_two :
    BoundRight (D := ℕ) "f" [⟨"a", none⟩, ⟨"b", none⟩] [some 1] [("b", some 2)] :=
  (boundRight_iff _ _ _ _ (by decide) (by decide)).2 ⟨by decide, .inl fun i => by
    rcases i with _ | _ | i <;> simp⟩

/-- With `f(a, b = 1, c = 2)`, the call `f(1, c = 5)` leaves `b` undefined and `c` as it was. -/
theorem not_boundRight_skip :
    ¬ BoundRight "f" [⟨"a", none⟩, ⟨"b", some 1⟩, ⟨"c", some 2⟩] [some 1] [("c", some 5)] := by
  rintro ⟨-, hr, -⟩
  obtain ⟨b, hm, hb⟩ := hr 1 _ rfl
  cases hm
  cases hb

end

end Llama.Jinja
