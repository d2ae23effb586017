import Llama.Lib.Exec
import Mathlib.Data.Finset.Card

/-!
# Search with a stack of pending items

`search` takes items from a stack, skips those it has seen and otherwise keeps the item or
replaces it by others.  When it returns, it has found exactly the kept items that can be
reached (`mem_search`); it finishes when only finitely many items can be reached
(`search_finishes`), and only then (`search_finite`).
-/

namespace Worklist

open List

/-- What a search does with an item. -/
inductive Visit (α : Type)
  | keep
  | expand (next : List α)
  | abort

variable {α : Type} [DecidableEq α] (visit : α → Visit α)

/-- The loop, for at most the given number of rounds. -/
def search : ℕ → List α → List α → List α → Exec (List α)
  | 0, _, _, _ => .unfinished
  | _ + 1, [], _, found => .ok found
  | n + 1, c :: todo, seen, found =>
    if c ∈ seen then search n todo seen found
    else match visit c with
      | .keep => search n todo (c :: seen) (if c ∈ found then found else found ++ [c])
      | .expand next => search n (next.reverse ++ todo) (c :: seen) found
      | .abort => .aborted

omit [DecidableEq α] in
/-- One item leads to another. -/
def Step (a b : α) : Prop := ∃ next, visit a = .expand next ∧ b ∈ next

omit [DecidableEq α] in
/-- The items that can be reached. -/
def Reach : α → α → Prop := Relation.ReflTransGen (Step visit)

lemma search_le (n : ℕ) : ∀ todo seen found,
    Exec.Le (search visit n todo seen found) (search visit (n + 1) todo seen found) := by
  induction n with
  | zero => intro todo seen found; exact .inl rfl
  | succ n ih =>
    intro todo seen found
    cases todo with
    | nil => exact .refl _
    | cons c todo =>
      rw [search, search]
      split
      · exact ih _ _ _
      · cases visit c with
        | keep => exact ih _ _ _
        | expand next => exact ih _ _ _
        | abort => exact .refl _

/-- A larger bound changes nothing once the search finishes. -/
lemma search_mono {n m : ℕ} (h : n ≤ m) (todo seen found : List α) :
    Exec.Le (search visit n todo seen found) (search visit m todo seen found) := by
  induction h with
  | refl => exact .refl _
  | step _ ih => exact ih.trans (search_le visit _ _ _ _)

variable {visit}

/-! ## What is found -/

/-- What holds in each round of a search from `s` that started with `base` found. -/
structure Inv (visit : α → Visit α) (s : α) (base todo seen found : List α) : Prop where
  start : s ∈ seen ∨ s ∈ todo
  todo_reach : ∀ c ∈ todo, Reach visit s c
  seen_reach : ∀ c ∈ seen, Reach visit s c
  seen_keep : ∀ c ∈ seen, visit c = .keep → c ∈ found
  seen_expand : ∀ c ∈ seen, ∀ next, visit c = .expand next → ∀ d ∈ next, d ∈ seen ∨ d ∈ todo
  seen_abort : ∀ c ∈ seen, visit c ≠ .abort
  base_sub : ∀ c ∈ base, c ∈ found
  found_sub : ∀ c ∈ found, c ∈ base ∨ visit c = .keep ∧ Reach visit s c

omit [DecidableEq α] in
lemma Inv.skip {s c : α} {base todo seen found : List α}
    (h : Inv visit s base (c :: todo) seen found) (hc : c ∈ seen) :
    Inv visit s base todo seen found where
  start := h.start.elim .inl fun h' => (List.mem_cons.mp h').elim (fun e => .inl (e ▸ hc)) .inr
  todo_reach d hd := h.todo_reach d (List.mem_cons_of_mem _ hd)
  seen_reach := h.seen_reach
  seen_keep := h.seen_keep
  seen_expand d hd next hv e he := (h.seen_expand d hd next hv e he).elim .inl fun h' =>
    (List.mem_cons.mp h').elim (fun e' => .inl (e' ▸ hc)) .inr
  seen_abort := h.seen_abort
  base_sub := h.base_sub
  found_sub := h.found_sub

lemma Inv.keep {s c : α} {base todo seen found : List α}
    (h : Inv visit s base (c :: todo) seen found) (hv : visit c = .keep) :
    Inv visit s base todo (c :: seen) (if c ∈ found then found else found ++ [c]) := by
  have hmem : ∀ d, d ∈ (if c ∈ found then found else found ++ [c]) ↔ d ∈ found ∨ d = c := by
    intro d
    split
    · exact ⟨.inl, fun h' => h'.elim id fun e => by rwa [e]⟩
    · simp
  have hreach : Reach visit s c := h.todo_reach c mem_cons_self
  refine ⟨?_, fun d hd => h.todo_reach d (mem_cons_of_mem _ hd), ?_, ?_, ?_, ?_, ?_, ?_⟩
  · rcases h.start with h' | h'
    · exact .inl (mem_cons_of_mem _ h')
    · exact (mem_cons.mp h').elim (fun e => .inl (e ▸ mem_cons_self)) .inr
  · rintro d (_ | ⟨_, hd⟩)
    · exact hreach
    · exact h.seen_reach d hd
  · rintro d (_ | ⟨_, hd⟩) hk
    · exact (hmem c).mpr (.inr rfl)
    · exact (hmem d).mpr (.inl (h.seen_keep d hd hk))
  · rintro d (_ | ⟨_, hd⟩) next hn e he
    · rw [hv] at hn
      cases hn
    · rcases h.seen_expand d hd next hn e he with h' | h'
      · exact .inl (mem_cons_of_mem _ h')
      · exact (mem_cons.mp h').elim (fun e' => .inl (e' ▸ mem_cons_self)) .inr
  · rintro d (_ | ⟨_, hd⟩)
    · rw [hv]
      exact nofun
    · exact h.seen_abort d hd
  · exact fun d hd => (hmem d).mpr (.inl (h.base_sub d hd))
  · intro d hd
    rcases (hmem d).mp hd with h' | rfl
    · exact h.found_sub d h'
    · exact .inr ⟨hv, hreach⟩

omit [DecidableEq α] in
lemma Inv.expand {s c : α} {base todo seen found next : List α}
    (h : Inv visit s base (c :: todo) seen found) (hv : visit c = .expand next) :
    Inv visit s base (next.reverse ++ todo) (c :: seen) found := by
  have hreach : Reach visit s c := h.todo_reach c List.mem_cons_self
  refine ⟨?_, ?_, ?_, ?_, ?_, ?_, h.base_sub, h.found_sub⟩
  · rcases h.start with h' | h'
    · exact .inl (List.mem_cons_of_mem _ h')
    · exact (List.mem_cons.mp h').elim (fun e => .inl (e ▸ List.mem_cons_self))
        fun e => .inr (List.mem_append_right _ e)
  · intro d hd
    rcases List.mem_append.mp hd with h' | h'
    · exact hreach.tail ⟨next, hv, List.mem_reverse.mp h'⟩
    · exact h.todo_reach d (List.mem_cons_of_mem _ h')
  · rintro d (_ | ⟨_, hd⟩)
    · exact hreach
    · exact h.seen_reach d hd
  · rintro d (_ | ⟨_, hd⟩) hk
    · rw [hv] at hk
      cases hk
    · exact h.seen_keep d hd hk
  · rintro d (_ | ⟨_, hd⟩) next' hn e he
    · rw [hv] at hn
      cases hn
      exact .inr (List.mem_append_left _ (List.mem_reverse.mpr he))
    · rcases h.seen_expand d hd next' hn e he with h' | h'
      · exact .inl (List.mem_cons_of_mem _ h')
      · exact (List.mem_cons.mp h').elim (fun e' => .inl (e' ▸ List.mem_cons_self))
          fun e' => .inr (List.mem_append_right _ e')
  · rintro d (_ | ⟨_, hd⟩)
    · rw [hv]
      exact nofun
    · exact h.seen_abort d hd

omit [DecidableEq α] in
lemma inv_start (s : α) (base : List α) : Inv visit s base [s] [] base where
  start := .inr List.mem_cons_self
  todo_reach _ hc := List.mem_singleton.mp hc ▸ .refl
  seen_reach _ hc := absurd hc List.not_mem_nil
  seen_keep _ hc := absurd hc List.not_mem_nil
  seen_expand _ hc := absurd hc List.not_mem_nil
  seen_abort _ hc := absurd hc List.not_mem_nil
  base_sub _ hc := hc
  found_sub _ hc := .inl hc

/-- A search that returns ends in a round with nothing left to do. -/
lemma Inv.search {s : α} {base : List α} (n : ℕ) : ∀ {todo seen found out : List α},
    Inv visit s base todo seen found → search visit n todo seen found = .ok out →
      ∃ seen', Inv visit s base [] seen' out := by
  induction n with
  | zero => intro _ _ _ _ _ h; cases h
  | succ n ih =>
    intro todo seen found out hinv h
    cases todo with
    | nil =>
      cases h
      exact ⟨seen, hinv⟩
    | cons c todo =>
      rw [Worklist.search] at h
      split at h
      · rename_i hc
        exact ih (hinv.skip hc) h
      · split at h
        · rename_i hv
          exact ih (hinv.keep hv) h
        · rename_i next hv
          exact ih (hinv.expand hv) h
        · cases h

omit [DecidableEq α] in
/-- With nothing left to do, everything that can be reached was seen. -/
lemma Inv.seen_of_reach {s c : α} {base seen found : List α}
    (h : Inv visit s base [] seen found) (hc : Reach visit s c) : c ∈ seen := by
  induction hc with
  | refl => exact h.start.resolve_right List.not_mem_nil
  | tail _ hstep ih =>
    obtain ⟨next, hv, hmem⟩ := hstep
    exact (h.seen_expand _ ih next hv _ hmem).resolve_right List.not_mem_nil

/-- **What a search finds**: what it started with, and the kept items that can be reached. -/
theorem mem_search {n : ℕ} {s : α} {base out : List α} (h : search visit n [s] [] base = .ok out)
    (c : α) : c ∈ out ↔ c ∈ base ∨ visit c = .keep ∧ Reach visit s c := by
  obtain ⟨seen, hinv⟩ := (inv_start s base).search n h
  refine ⟨hinv.found_sub c, ?_⟩
  rintro (hc | ⟨hv, hc⟩)
  · exact hinv.base_sub c hc
  · exact hinv.seen_keep c (hinv.seen_of_reach hc) hv

/-- A search that returns reached finitely many items, and none that aborts. -/
lemma search_finite {n : ℕ} {s : α} {base out : List α}
    (h : search visit n [s] [] base = .ok out) :
    ∃ l : List α, ∀ c, Reach visit s c → c ∈ l ∧ visit c ≠ .abort := by
  obtain ⟨seen, hinv⟩ := (inv_start s base).search n h
  exact ⟨seen, fun c hc => ⟨hinv.seen_of_reach hc, hinv.seen_abort c (hinv.seen_of_reach hc)⟩⟩

/-- A search aborts only on an item that can be reached, and never throws. -/
lemma search_cases (n : ℕ) : ∀ {todo seen found : List α} {s : α}, (∀ c ∈ todo, Reach visit s c) →
      search visit n todo seen found = .unfinished ∨
      (∃ out, search visit n todo seen found = .ok out) ∨
      search visit n todo seen found = .aborted ∧ ∃ c, Reach visit s c ∧ visit c = .abort := by
  induction n with
  | zero => intro _ _ _ _ _; exact .inl rfl
  | succ n ih =>
    intro todo seen found s hreach
    cases todo with
    | nil => exact .inr (.inl ⟨found, rfl⟩)
    | cons c todo =>
      have hrest : ∀ d ∈ todo, Reach visit s d := fun d hd =>
        hreach d (mem_cons_of_mem _ hd)
      have hc : Reach visit s c := hreach c mem_cons_self
      rw [search]
      split
      · exact ih hrest
      · cases hv : visit c with
        | keep => exact ih hrest
        | expand next =>
          refine ih fun d hd => ?_
          rcases mem_append.mp hd with h' | h'
          · exact hc.tail ⟨next, hv, mem_reverse.mp h'⟩
          · exact hrest d h'
        | abort => exact .inr (.inr ⟨rfl, c, hc, hv⟩)

/-- **A search finishes** when only finitely many items can be reached. -/
theorem search_finishes {s : α} {l : List α} (hl : ∀ c, Reach visit s c → c ∈ l)
    (base : List α) : ∃ n, search visit n [s] [] base ≠ .unfinished := by
  -- each round shortens the stack or makes one of the reachable items seen
  suffices h : ∀ (u k : ℕ) (todo seen found : List α),
      (l.toFinset \ seen.toFinset).card = u → todo.length = k → (∀ c ∈ todo, Reach visit s c) →
        ∃ n, search visit n todo seen found ≠ .unfinished from
    h _ _ [s] [] base rfl rfl fun c hc => mem_singleton.mp hc ▸ .refl
  intro u
  induction u using Nat.strong_induction_on with
  | _ u ihu =>
    intro k
    induction k with
    | zero =>
      intro todo seen found _ hk _
      rw [length_eq_zero_iff] at hk
      exact ⟨1, by rw [hk]; exact nofun⟩
    | succ k ihk =>
      intro todo seen found hu hk hreach
      obtain ⟨c, todo, rfl⟩ := exists_cons_of_length_eq_add_one hk
      have hc : Reach visit s c := hreach c mem_cons_self
      have hrest : ∀ d ∈ todo, Reach visit s d := fun d hd =>
        hreach d (mem_cons_of_mem _ hd)
      by_cases hseen : c ∈ seen
      · obtain ⟨n, hn⟩ := ihk todo seen found hu (by simpa using hk) hrest
        exact ⟨n + 1, by rw [search, if_pos hseen]; exact hn⟩
      · have hless : (l.toFinset \ (c :: seen).toFinset).card < u := by
          rw [← hu]
          refine Finset.card_lt_card (Finset.ssubset_iff_of_subset ?_ |>.mpr ⟨c, ?_, ?_⟩)
          · refine Finset.sdiff_subset_sdiff (Finset.Subset.refl _) ?_
            rw [toFinset_cons]
            exact Finset.subset_insert _ _
          · simp [hl c hc, hseen]
          · simp
        cases hv : visit c with
        | keep =>
          obtain ⟨n, hn⟩ := ihu _ hless _ todo (c :: seen)
            (if c ∈ found then found else found ++ [c]) rfl rfl hrest
          exact ⟨n + 1, by rw [search, if_neg hseen, hv]; exact hn⟩
        | expand next =>
          obtain ⟨n, hn⟩ := ihu _ hless _ (next.reverse ++ todo) (c :: seen) found rfl rfl
            fun d hd => (mem_append.mp hd).elim
              (fun h' => hc.tail ⟨next, hv, mem_reverse.mp h'⟩) (hrest d)
          exact ⟨n + 1, by rw [search, if_neg hseen, hv]; exact hn⟩
        | abort =>
          exact ⟨1, by simp only [search, if_neg hseen, hv]; exact nofun⟩

omit [DecidableEq α] in
/-- Without an infinite chain of steps, finitely many items can be reached. -/
lemma finite_of_acc {s : α} (h : Acc (fun b a => Step visit a b) s) :
    ∃ l : List α, ∀ c, Reach visit s c → c ∈ l := by
  induction h with
  | intro s _ ih =>
    cases hv : visit s with
    | keep =>
      refine ⟨[s], fun c hc => ?_⟩
      rcases Relation.ReflTransGen.cases_head hc with rfl | ⟨d, ⟨next, hn, -⟩, -⟩
      · exact List.mem_singleton_self _
      · rw [hv] at hn
        cases hn
    | abort =>
      refine ⟨[s], fun c hc => ?_⟩
      rcases Relation.ReflTransGen.cases_head hc with rfl | ⟨d, ⟨next, hn, -⟩, -⟩
      · exact List.mem_singleton_self _
      · rw [hv] at hn
        cases hn
    | expand next =>
      have hall : ∀ ds : List α, (∀ d ∈ ds, d ∈ next) →
          ∃ l : List α, ∀ d ∈ ds, ∀ c, Reach visit d c → c ∈ l := by
        intro ds
        induction ds with
        | nil => exact fun _ => ⟨[], fun d hd => absurd hd List.not_mem_nil⟩
        | cons d ds ihds =>
          intro hds
          obtain ⟨l, hl⟩ := ihds fun e he => hds e (List.mem_cons_of_mem _ he)
          obtain ⟨l', hl'⟩ := ih d ⟨next, hv, hds d List.mem_cons_self⟩
          refine ⟨l' ++ l, ?_⟩
          rintro e (_ | ⟨_, he⟩) c hc
          · exact List.mem_append_left _ (hl' c hc)
          · exact List.mem_append_right _ (hl e he c hc)
      obtain ⟨l, hl⟩ := hall next fun _ hd => hd
      refine ⟨s :: l, fun c hc => ?_⟩
      rcases Relation.ReflTransGen.cases_head hc with rfl | ⟨d, ⟨next', hn, hd⟩, hdc⟩
      · exact List.mem_cons_self
      · rw [hv] at hn
        cases hn
        exact List.mem_cons_of_mem _ (hl d hd c hdc)

omit [DecidableEq α] in
/-- A search without an infinite chain of steps, an item that aborts or an empty expansion
keeps an item. -/
lemma exists_keep {s : α} (h : Acc (fun b a => Step visit a b) s)
    (hok : ∀ c, Reach visit s c → visit c ≠ .abort ∧ visit c ≠ .expand []) :
    ∃ t, Reach visit s t ∧ visit t = .keep := by
  induction h with
  | intro s _ ih =>
    obtain ⟨habort, hexpand⟩ := hok s .refl
    cases hv : visit s with
    | keep => exact ⟨s, .refl, hv⟩
    | abort => exact absurd hv habort
    | expand next =>
      cases next with
      | nil => exact absurd hv hexpand
      | cons d ds =>
        have hstep : Step visit s d := ⟨_, hv, List.mem_cons_self⟩
        obtain ⟨t, ht, hkeep⟩ := ih d hstep fun c hc => hok c (.head hstep hc)
        exact ⟨t, .head hstep ht, hkeep⟩

end Worklist
