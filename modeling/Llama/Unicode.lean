import Mathlib.Algebra.Group.Nat.Defs
import Mathlib.Data.List.Basic

/-!
# Code points and their bytes

`parseUtf8Codepoint` is the decoder of the common library: one code point at an offset of a text,
or what is wrong with the bytes there.  `cptToUtf8` is the encoder.

The decoder takes the bytes of the encoder back (`parseUtf8Codepoint_cptToUtf8`), and behind the
first byte of a code point there are only bytes that start none, so no code point is found inside
of another one.
-/

namespace Llama.Unicode

open List

inductive Utf8ParseResult
  | success (codepoint bytesConsumed : ℕ)
  | incomplete
  | invalid
  deriving DecidableEq, Repr

/-- Whether a byte continues a sequence. -/
def isContinuation (b : UInt8) : Bool := b.toNat / 64 = 2

/-- The sequence of a first byte, with the bytes behind it. -/
def parseSequence (b : UInt8) (rest : List UInt8) : Utf8ParseResult :=
  if b.toNat < 0x80 then .success b.toNat 1
  else if b.toNat < 0xC0 then .invalid
  else if b.toNat < 0xE0 then
    match rest with
    | b1 :: _ =>
      if isContinuation b1 then .success (b.toNat % 32 * 64 + b1.toNat % 64) 2 else .invalid
    | _ => .incomplete
  else if b.toNat < 0xF0 then
    match rest with
    | b1 :: b2 :: _ =>
      if isContinuation b1 && isContinuation b2 then
        .success (b.toNat % 16 * 64 ^ 2 + b1.toNat % 64 * 64 + b2.toNat % 64) 3
      else .invalid
    | _ => .incomplete
  else if b.toNat < 0xF8 then
    match rest with
    | b1 :: b2 :: b3 :: _ =>
      if isContinuation b1 && isContinuation b2 && isContinuation b3 then
        .success
          (b.toNat % 8 * 64 ^ 3 + b1.toNat % 64 * 64 ^ 2 + b2.toNat % 64 * 64 + b3.toNat % 64) 4
      else .invalid
    | _ => .incomplete
  else .invalid

/-- `common_parse_utf8_codepoint`. -/
def parseUtf8Codepoint (input : List UInt8) (offset : ℕ) : Utf8ParseResult :=
  match input.drop offset with
  | [] => .incomplete
  | b :: rest => parseSequence b rest

/-- `common_unicode_cpt_to_utf8`; what is no code point has no bytes. -/
def cptToUtf8 (c : ℕ) : List UInt8 :=
  if c ≤ 0x7F then [.ofNat c]
  else if c ≤ 0x7FF then [.ofNat (0xC0 + c / 64), .ofNat (0x80 + c % 64)]
  else if c ≤ 0xFFFF then
    [.ofNat (0xE0 + c / 64 ^ 2), .ofNat (0x80 + c / 64 % 64), .ofNat (0x80 + c % 64)]
  else if c ≤ 0x10FFFF then
    [.ofNat (0xF0 + c / 64 ^ 3), .ofNat (0x80 + c / 64 ^ 2 % 64), .ofNat (0x80 + c / 64 % 64),
      .ofNat (0x80 + c % 64)]
  else []

/-- `common_unicode_cpts_to_utf8`. -/
def cptsToUtf8 (cs : List ℕ) : List UInt8 := cs.flatMap cptToUtf8

/-- A code point that is no surrogate. -/
def IsScalar (c : ℕ) : Prop := c < 0xD800 ∨ 0xDFFF < c ∧ c ≤ 0x10FFFF

instance (c : ℕ) : Decidable (IsScalar c) := inferInstanceAs (Decidable (_ ∨ _ ∧ _))

/-- A valid text, with its code points. -/
def Utf8Encodes (cs : List ℕ) (text : List UInt8) : Prop :=
  (∀ c ∈ cs, IsScalar c) ∧ text = cptsToUtf8 cs

/-! ## The decoder on encoded text -/

lemma toNat_ofNat {n : ℕ} (h : n < 256) : (UInt8.ofNat n).toNat = n := by
  exact Nat.mod_eq_of_lt h

lemma isContinuation_ofNat {n : ℕ} (h : n < 64) : isContinuation (.ofNat (0x80 + n)) = true := by
  rw [isContinuation, toNat_ofNat (by omega)]
  exact decide_eq_true (by omega)

variable {c : ℕ}

lemma IsScalar.le (h : IsScalar c) : c ≤ 0x10FFFF := by
  unfold IsScalar at h
  omega

/-- A code point has a first byte that continues no sequence, and other bytes that do. -/
lemma cptToUtf8_eq_cons (h : c ≤ 0x10FFFF) :
    ∃ b bs, cptToUtf8 c = b :: bs ∧ isContinuation b = false ∧ (∀ x ∈ bs, isContinuation x = true) ∧
        ∀ rest, parseSequence b (bs ++ rest) = .success c (bs.length + 1) := by
  have hcont : ∀ n, isContinuation (.ofNat (0x80 + n % 64)) = true := fun n =>
    isContinuation_ofNat (Nat.mod_lt _ (by decide))
  have hnat : ∀ n, (UInt8.ofNat (0x80 + n % 64)).toNat = 0x80 + n % 64 := fun n =>
    toNat_ofNat (by omega)
  have hnil : ∀ x ∈ ([] : List UInt8), isContinuation x = true := by simp
  unfold cptToUtf8
  split
  · have hb : (UInt8.ofNat c).toNat = c := toNat_ofNat (by omega)
    refine ⟨_, _, rfl, ?_, hnil, fun rest => ?_⟩
    · exact decide_eq_false (by omega)
    · unfold parseSequence
      rw [hb, if_pos (by omega)]
      rfl
  split
  · have hb : (UInt8.ofNat (0xC0 + c / 64)).toNat = 0xC0 + c / 64 := toNat_ofNat (by omega)
    refine ⟨_, _, rfl, ?_, forall_mem_cons.mpr ⟨hcont c, hnil⟩, fun rest => ?_⟩
    · exact decide_eq_false (by omega)
    · have hval : (0xC0 + c / 64) % 32 * 64 + (0x80 + c % 64) % 64 = c := by omega
      unfold parseSequence
      rw [hb, if_neg (by omega), if_neg (by omega), if_pos (by omega)]
      simp only [cons_append, hcont, if_true, hnat, hval, length_singleton]
  split
  · have hb : (UInt8.ofNat (0xE0 + c / 64 ^ 2)).toNat = 0xE0 + c / 64 ^ 2 :=
      toNat_ofNat (by omega)
    refine ⟨_, _, rfl, ?_, forall_mem_cons.mpr ⟨hcont _, forall_mem_cons.mpr
      ⟨hcont c, hnil⟩⟩, fun rest => ?_⟩
    · exact decide_eq_false (by omega)
    · have hval : (0xE0 + c / 64 ^ 2) % 16 * 64 ^ 2 + (0x80 + c / 64 % 64) % 64 * 64 +
          (0x80 + c % 64) % 64 = c := by omega
      unfold parseSequence
      rw [hb, if_neg (by omega), if_neg (by omega), if_neg (by omega), if_pos (by omega)]
      simp only [cons_append, hcont, Bool.and_self, if_true, hnat, hval, length_cons, length_nil]
  have hb : (UInt8.ofNat (0xF0 + c / 64 ^ 3)).toNat = 0xF0 + c / 64 ^ 3 :=
    toNat_ofNat (by omega)
  refine ⟨_, _, rfl, ?_, forall_mem_cons.mpr ⟨hcont _, forall_mem_cons.mpr
    ⟨hcont _, forall_mem_cons.mpr ⟨hcont c, hnil⟩⟩⟩, fun rest => ?_⟩
  · exact decide_eq_false (by omega)
  · have hval : (0xF0 + c / 64 ^ 3) % 8 * 64 ^ 3 + (0x80 + c / 64 ^ 2 % 64) % 64 * 64 ^ 2 +
        (0x80 + c / 64 % 64) % 64 * 64 + (0x80 + c % 64) % 64 = c := by omega
    unfold parseSequence
    rw [hb, if_neg (by omega), if_neg (by omega), if_neg (by omega), if_neg (by omega),
      if_pos (by omega)]
    simp only [cons_append, hcont, Bool.and_self, if_true, hnat, hval, length_cons, length_nil]

lemma cptToUtf8_ne_nil (h : c ≤ 0x10FFFF) : cptToUtf8 c ≠ [] := by
  obtain ⟨b, bs, heq, -⟩ := cptToUtf8_eq_cons h
  rw [heq]
  exact cons_ne_nil b bs

/-- **The decoder takes the bytes of the encoder back.** -/
theorem parseUtf8Codepoint_cptToUtf8 (h : c ≤ 0x10FFFF) (pre rest : List UInt8) :
    parseUtf8Codepoint (pre ++ (cptToUtf8 c ++ rest)) pre.length =
      .success c (cptToUtf8 c).length := by
  obtain ⟨b, bs, heq, -, -, hparse⟩ := cptToUtf8_eq_cons h
  rw [parseUtf8Codepoint, drop_left, heq]
  exact hparse rest

/-- At a byte that continues a sequence there is no code point. -/
lemma parseUtf8Codepoint_of_isContinuation {input rest : List UInt8} {offset : ℕ} {b : UInt8}
    (h : input.drop offset = b :: rest) (hb : isContinuation b = true) :
    parseUtf8Codepoint input offset = .invalid := by
  have hlt : ¬ b.toNat < 0x80 ∧ b.toNat < 0xC0 := by
    simp only [isContinuation, decide_eq_true_eq] at hb
    omega
  rw [parseUtf8Codepoint, h]
  change parseSequence b rest = _
  unfold parseSequence
  rw [if_neg hlt.1, if_pos hlt.2]

/-! ## Places between code points -/

@[simp] lemma cptsToUtf8_append (cs ds : List ℕ) :
    cptsToUtf8 (cs ++ ds) = cptsToUtf8 cs ++ cptsToUtf8 ds := flatMap_append

lemma cptsToUtf8_cons (c : ℕ) (cs : List ℕ) :
    cptsToUtf8 (c :: cs) = cptToUtf8 c ++ cptsToUtf8 cs := flatMap_cons

lemma length_le_cptsToUtf8 {cs : List ℕ} (h : ∀ c ∈ cs, c ≤ 0x10FFFF) :
    cs.length ≤ (cptsToUtf8 cs).length := by
  induction cs with
  | nil => exact Nat.le_refl _
  | cons c cs ih =>
    obtain ⟨hc, hcs⟩ := forall_mem_cons.mp h
    have hpos := length_pos_iff.mpr (cptToUtf8_ne_nil hc)
    have hle := ih hcs
    rw [cptsToUtf8_cons, length_append, length_cons]
    omega

/-- Between the first code points and the others. -/
def Boundary (cs : List ℕ) (o : ℕ) (post : List ℕ) : Prop :=
  ∃ pre, cs = pre ++ post ∧ o = (cptsToUtf8 pre).length

variable {cs post : List ℕ} {o : ℕ}

lemma Boundary.length (h : Boundary cs o post) :
    (cptsToUtf8 cs).length = o + (cptsToUtf8 post).length := by
  obtain ⟨pre, rfl, rfl⟩ := h
  rw [cptsToUtf8_append, length_append]

lemma Boundary.next (h : Boundary cs o (c :: post)) :
    Boundary cs (o + (cptToUtf8 c).length) post := by
  obtain ⟨pre, rfl, rfl⟩ := h
  refine ⟨pre ++ [c], by simp, ?_⟩
  simp [cptsToUtf8]

lemma Boundary.mem (h : Boundary cs o post) (hc : c ∈ post) : c ∈ cs := by
  obtain ⟨pre, rfl, -⟩ := h
  exact mem_append_right _ hc

/-- There is a code point at a place between two. -/
lemma Boundary.parse (h : Boundary cs o (c :: post)) (hc : c ≤ 0x10FFFF) :
    o < (cptsToUtf8 cs).length ∧
      parseUtf8Codepoint (cptsToUtf8 cs) o = .success c (cptToUtf8 c).length := by
  constructor
  · have hpos := length_pos_iff.mpr (cptToUtf8_ne_nil hc)
    rw [h.length, cptsToUtf8_cons, length_append]
    omega
  · obtain ⟨pre, rfl, rfl⟩ := h
    rw [cptsToUtf8_append]
    exact parseUtf8Codepoint_cptToUtf8 hc _ _

/-- At the end of the text no code point is left. -/
lemma Boundary.eq_nil (h : Boundary cs o post) (hcs : ∀ c ∈ cs, c ≤ 0x10FFFF)
    (ho : (cptsToUtf8 cs).length ≤ o) : post = [] := by
  have hlen := h.length
  have hle := length_le_cptsToUtf8 fun c hc => hcs c (h.mem hc)
  exact length_eq_zero_iff.mp (by omega)

/-- The next place behind one is behind the code point there. -/
lemma Boundary.eq_or_le {x : ℕ} {post' : List ℕ} (hcs : ∀ c ∈ cs, c ≤ 0x10FFFF)
    (h : Boundary cs o (c :: post)) (h' : Boundary cs x post') (hle : o ≤ x) :
    x = o ∧ post' = c :: post ∨ o + (cptToUtf8 c).length ≤ x := by
  obtain ⟨pre, rfl, rfl⟩ := h
  obtain ⟨pre', heq, rfl⟩ := h'
  rcases append_eq_append_iff.mp heq with ⟨zs, rfl, hpost⟩ | ⟨zs, rfl, rfl⟩
  · cases zs with
    | nil =>
      rw [append_nil]
      exact .inl ⟨rfl, hpost.symm⟩
    | cons z zs =>
      obtain ⟨rfl, -⟩ := List.cons.inj hpost
      rw [cptsToUtf8_append, cptsToUtf8_cons, length_append, length_append]
      exact .inr (by omega)
  · have hle' : zs.length ≤ (cptsToUtf8 zs).length :=
      length_le_cptsToUtf8 fun z hz => hcs z (by simp [hz])
    rw [cptsToUtf8_append, length_append] at hle
    obtain rfl : zs = [] := length_eq_zero_iff.mp (by omega)
    rw [append_nil]
    exact .inl ⟨rfl, rfl⟩

/-- Inside of a code point every byte continues it. -/
lemma boundary_or_isContinuation (cs : List ℕ) : ∀ {o : ℕ}, (∀ c ∈ cs, c ≤ 0x10FFFF) →
    o < (cptsToUtf8 cs).length →
    (∃ post, Boundary cs o post) ∨
      ∃ b rest, (cptsToUtf8 cs).drop o = b :: rest ∧ isContinuation b = true := by
  induction cs with
  | nil => exact fun _ ho => absurd ho (Nat.not_lt_zero _)
  | cons c cs ih =>
    intro o hcs ho
    obtain ⟨hc, hcs⟩ := forall_mem_cons.mp hcs
    obtain ⟨b, bs, heq, -, hbs, -⟩ := cptToUtf8_eq_cons hc
    rw [cptsToUtf8_cons] at ho ⊢
    rcases Nat.eq_zero_or_pos o with rfl | hpos
    · exact .inl ⟨c :: cs, [], rfl, rfl⟩
    rcases Nat.lt_or_ge o (cptToUtf8 c).length with hlt | hge
    · right
      have hdrop : (cptToUtf8 c).drop o = bs.drop (o - 1) := by
        rw [heq]
        obtain ⟨k, rfl⟩ : ∃ k, o = k + 1 := ⟨o - 1, by omega⟩
        rfl
      have hlt' : o - 1 < bs.length := by
        rw [heq, length_cons] at hlt
        omega
      rw [drop_append_of_le_length (Nat.le_of_lt hlt), hdrop, drop_eq_getElem_cons hlt']
      exact ⟨_, _, rfl, hbs _ (getElem_mem hlt')⟩
    · obtain ⟨k, rfl⟩ := Nat.exists_eq_add_of_le hge
      rw [length_append] at ho
      rw [drop_append, Nat.add_sub_cancel_left,
        drop_eq_nil_of_le (Nat.le_add_right _ _), nil_append]
      rcases ih (o := k) hcs (by omega) with ⟨post, pre, hpre, hk⟩ | h
      · refine .inl ⟨post, c :: pre, by rw [hpre]; rfl, ?_⟩
        rw [cptsToUtf8_cons, length_append, hk]
      · exact .inr h

end Llama.Unicode
