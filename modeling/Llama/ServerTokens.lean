import Mathlib.Data.List.Basic
import Mathlib.Data.Int.Notation
import Mathlib.Order.Basic

/-!
# Token lists with media

`server_tokens` is a list of tokens in which each media chunk occupies some places with
`LLAMA_TOKEN_NULL`, and a map from the first of these places to the chunk.  The two are kept in
step by the class, so that a list is given by its pieces: text tokens and media chunks.
-/

namespace Llama

open List

/-- `LLAMA_TOKEN_NULL`. -/
def tokenNull : ℤ := -1

/-- A media chunk: its id and the number of tokens it takes. -/
structure MediaChunk where
  id : List UInt8
  nTokens : ℕ
  deriving DecidableEq, Repr

/-- A piece of a token list. -/
inductive TokenPiece
  | text (token : ℤ)
  | media (chunk : MediaChunk)
  deriving DecidableEq, Repr

namespace TokenPiece

/-- The places a piece takes. -/
def tokens : TokenPiece → List ℤ
  | text token => [token]
  | media chunk => List.replicate chunk.nTokens tokenNull

/-- A text token is not the null token, and a chunk is not empty. -/
def Ok : TokenPiece → Prop
  | text token => token ≠ tokenNull
  | media chunk => 0 < chunk.nTokens

/-- The chunk of a piece. -/
def chunk? : TokenPiece → Option MediaChunk
  | text _ => none
  | media chunk => some chunk

instance : DecidablePred Ok
  | text token => inferInstanceAs (Decidable (token ≠ tokenNull))
  | media chunk => inferInstanceAs (Decidable (0 < chunk.nTokens))

end TokenPiece

/-- The tokens of pieces. -/
def pieceTokens (ps : List TokenPiece) : List ℤ := ps.flatMap TokenPiece.tokens

/-- The chunk that starts at a place. -/
def chunkAt : List TokenPiece → ℕ → Option MediaChunk
  | [], _ => none
  | p :: _, 0 => p.chunk?
  | p :: ps, i + 1 =>
    if i + 1 < p.tokens.length then none else chunkAt ps (i + 1 - p.tokens.length)

/-- `server_tokens`.  There is no media without `has_mtmd`. -/
structure ServerTokens where
  hasMtmd : Bool
  pieces : List TokenPiece
  ok : ∀ p ∈ pieces, p.Ok
  noMedia : hasMtmd = false → ∀ p ∈ pieces, p.chunk? = none
  deriving DecidableEq

namespace ServerTokens

variable {a b : ServerTokens}

def tokens (st : ServerTokens) : List ℤ := pieceTokens st.pieces

/-- `size`. -/
def length (st : ServerTokens) : ℕ := st.tokens.length

/-- `find_chunk`, where a missing chunk is an exception. -/
def findChunk (st : ServerTokens) (i : ℕ) : Option MediaChunk := chunkAt st.pieces i

/-- The empty list. -/
def empty (hasMtmd : Bool) : ServerTokens := ⟨hasMtmd, [], by simp, by simp⟩

/-- The loop of `get_common_prefix` without media, from the place `i` on. -/
def textLoop (a b : ServerTokens) (maxIdx : ℕ) : ℕ → ℕ → ℕ
  | 0, _ => maxIdx
  | n + 1, i =>
    if i < maxIdx then
      if a.tokens[i]? = b.tokens[i]? then textLoop a b maxIdx n (i + 1) else i
    else maxIdx

/-- The loop of `get_common_prefix` with media, from the place `i` on.  Two chunks are equal if
their ids and their sizes are. -/
def mediaLoop (a b : ServerTokens) (maxIdx : ℕ) : ℕ → ℕ → ℕ
  | 0, _ => maxIdx
  | n + 1, i =>
    if i < maxIdx then
      if a.tokens[i]? = some tokenNull ∧ b.tokens[i]? = some tokenNull then
        match a.findChunk i, b.findChunk i with
        | some ca, some cb =>
          if ca.id = cb.id ∧ ca.nTokens = cb.nTokens then
            mediaLoop a b maxIdx n (i + (ca.nTokens - 1) + 1)
          else i
        | _, _ => i
      else if a.tokens[i]? = b.tokens[i]? then mediaLoop a b maxIdx n (i + 1) else i
    else maxIdx

/-- `get_common_prefix`.  No loop makes more than `maxIdx` rounds. -/
def commonPrefix (a b : ServerTokens) : ℕ :=
  let maxIdx := min a.length b.length
  if a.hasMtmd then mediaLoop a b maxIdx maxIdx 0 else textLoop a b maxIdx maxIdx 0

/-! ## Prefixes -/

/-- The pieces of a list come first in another one. -/
def IsPrefix (a b : ServerTokens) : Prop := a.pieces <+: b.pieces

instance : Decidable (a.IsPrefix b) := inferInstanceAs (Decidable (a.pieces <+: b.pieces))

end ServerTokens

/-- The pieces two lists have in common. -/
def commonPieces : List TokenPiece → List TokenPiece → List TokenPiece
  | p :: ps, q :: qs => if p = q then p :: commonPieces ps qs else []
  | _, _ => []

@[simp] lemma pieceTokens_nil : pieceTokens [] = [] := rfl

@[simp] lemma pieceTokens_cons (p : TokenPiece) (ps : List TokenPiece) :
    pieceTokens (p :: ps) = p.tokens ++ pieceTokens ps := flatMap_cons

lemma commonPieces_prefix_left : ∀ ps qs : List TokenPiece, commonPieces ps qs <+: ps
  | [], _ => nil_prefix
  | _ :: _, [] => nil_prefix
  | p :: ps, q :: qs => by
    unfold commonPieces
    split
    · exact (prefix_cons_inj p).mpr (commonPieces_prefix_left ps qs)
    · exact nil_prefix

lemma commonPieces_comm : ∀ ps qs : List TokenPiece, commonPieces ps qs = commonPieces qs ps
  | [], [] => rfl
  | [], _ :: _ => rfl
  | _ :: _, [] => rfl
  | p :: ps, q :: qs => by
    unfold commonPieces
    by_cases h : p = q
    · rw [if_pos h, if_pos h.symm, h, commonPieces_comm ps qs]
    · rw [if_neg h, if_neg (Ne.symm h)]

lemma commonPieces_eq_left_iff : ∀ {ps qs : List TokenPiece}, commonPieces ps qs = ps ↔ ps <+: qs
  | [], _ => by simp [commonPieces]
  | _ :: _, [] => by simp [commonPieces]
  | p :: ps, q :: qs => by
    unfold commonPieces
    by_cases h : p = q
    · rw [if_pos h, h, cons_inj_right, commonPieces_eq_left_iff, prefix_cons_inj]
    · simp [h]

lemma TokenPiece.Ok.length_pos {p : TokenPiece} (h : p.Ok) : 0 < p.tokens.length := by
  cases p with
  | text token => exact Nat.one_pos
  | media chunk =>
    rw [tokens, length_replicate]
    exact h

/-- A prefix of pieces that is as long as the whole is the whole. -/
lemma eq_of_prefix_of_length {ps qs : List TokenPiece} (hok : ∀ q ∈ qs, q.Ok) (h : ps <+: qs)
    (hlen : (pieceTokens ps).length = (pieceTokens qs).length) : ps = qs := by
  obtain ⟨rest, rfl⟩ := h
  cases rest with
  | nil => exact (append_nil ps).symm
  | cons r rest =>
    have hr := (hok r (by simp)).length_pos
    simp only [pieceTokens, flatMap_append, flatMap_cons, length_append] at hlen
    omega

/-! ## The loops -/

section Loops

variable {ps qs : List TokenPiece} {maxIdx n i : ℕ}

/-- What the loops see from a place on: the first token of the pieces that are left. -/
lemma getElem?_pieceTokens_append (pre : List TokenPiece) (hi : (pieceTokens pre).length = i) :
    (pieceTokens (pre ++ ps))[i]? = (pieceTokens ps)[0]? := by
  rw [pieceTokens, flatMap_append]
  change (pieceTokens pre ++ pieceTokens ps)[i]? = _
  rw [getElem?_append_right (Nat.le_of_eq hi), hi, Nat.sub_self]

lemma chunkAt_append : ∀ {pre : List TokenPiece} {i : ℕ}, (∀ p ∈ pre, p.Ok) →
    (pieceTokens pre).length = i → chunkAt (pre ++ ps) i = chunkAt ps 0
  | [], i, _, hi => by
    rw [← hi]
    rfl
  | p :: pre, i, hok, hi => by
    obtain ⟨hp, hpre⟩ := forall_mem_cons.mp hok
    have hpos := hp.length_pos
    rw [pieceTokens_cons, length_append] at hi
    obtain ⟨k, rfl⟩ : ∃ k, i = k + 1 := ⟨i - 1, by omega⟩
    have hlt : ¬ k + 1 < p.tokens.length := by omega
    rw [cons_append, chunkAt, if_neg hlt]
    exact chunkAt_append hpre (by omega)

/-- Where one of the lists ends, the rest has nothing in common. -/
lemma commonPieces_eq_nil_of_end (hps : ∀ p ∈ ps, p.Ok) (hqs : ∀ q ∈ qs, q.Ok)
    (h : min (pieceTokens ps).length (pieceTokens qs).length = 0) : commonPieces ps qs = [] := by
  cases ps with
  | nil => rfl
  | cons p ps =>
    cases qs with
    | nil => rfl
    | cons q qs =>
      have hp := (hps p mem_cons_self).length_pos
      have hq := (hqs q mem_cons_self).length_pos
      rw [pieceTokens_cons, pieceTokens_cons, length_append, length_append] at h
      omega

lemma exists_cons_of_pos (h : 0 < (pieceTokens ps).length) : ∃ p ps', ps = p :: ps' := by
  cases ps with
  | nil => exact absurd h (Nat.lt_irrefl 0)
  | cons p ps' => exact ⟨p, ps', rfl⟩

/-- The first token of a piece tells a chunk from a text token. -/
lemma TokenPiece.Ok.head {p : TokenPiece} (h : p.Ok) :
    (p.tokens[0]? = some tokenNull ↔ ∃ chunk, p = .media chunk) ∧
      ∀ token, p.tokens[0]? = some token → token ≠ tokenNull → p = .text token := by
  cases p with
  | text token =>
    refine ⟨⟨fun hn => absurd (Option.some.inj hn) h, fun ⟨chunk, hc⟩ => by cases hc⟩, ?_⟩
    rintro token' ⟨⟩ -
    rfl
  | media chunk =>
    have h0 : (TokenPiece.media chunk).tokens[0]? = some tokenNull := by
      rw [tokens, getElem?_replicate, if_pos (show 0 < chunk.nTokens from h)]
    refine ⟨⟨fun _ => ⟨chunk, rfl⟩, fun _ => h0⟩, fun token ht hne => ?_⟩
    rw [h0] at ht
    exact absurd (Option.some.inj ht).symm hne

end Loops

namespace ServerTokens

variable {a b : ServerTokens} {pre ps qs : List TokenPiece} {n i : ℕ}

lemma length_eq (hps : a.pieces = pre ++ ps) :
    a.length = (pieceTokens pre).length + (pieceTokens ps).length := by
  rw [length, tokens, hps, pieceTokens, flatMap_append, length_append]
  rfl

/-- What both loops look at. -/
lemma getElem?_tokens {p : TokenPiece} (hps : a.pieces = pre ++ p :: ps)
    (hi : (pieceTokens pre).length = i) : a.tokens[i]? = p.tokens[0]? := by
  have hp : p.Ok := a.ok p (by simp [hps])
  rw [tokens, hps, getElem?_pieceTokens_append pre hi, pieceTokens_cons,
    getElem?_append_left hp.length_pos]

/-- Where one of the lists ends. -/
lemma min_length_of_end (hps : a.pieces = pre ++ ps) (hqs : b.pieces = pre ++ qs)
    (hi : (pieceTokens pre).length = i) (hend : min a.length b.length ≤ i) :
    min a.length b.length = i + (pieceTokens (commonPieces ps qs)).length := by
  have hla := length_eq hps
  have hlb := length_eq hqs
  have hokp : ∀ p ∈ ps, p.Ok := fun p hp => a.ok p (by simp [hps, hp])
  have hokq : ∀ q ∈ qs, q.Ok := fun q hq => b.ok q (by simp [hqs, hq])
  rw [commonPieces_eq_nil_of_end hokp hokq (by omega)]
  simp only [pieceTokens_nil, length_nil]
  omega

/-- Where none of the lists ends. -/
lemma exists_heads (hps : a.pieces = pre ++ ps) (hqs : b.pieces = pre ++ qs)
    (hi : (pieceTokens pre).length = i) (hlt : i < min a.length b.length) :
    (∃ p ps', ps = p :: ps') ∧ ∃ q qs', qs = q :: qs' := by
  have hla := length_eq hps
  have hlb := length_eq hqs
  exact ⟨exists_cons_of_pos (by omega), exists_cons_of_pos (by omega)⟩

lemma length_pieceTokens_snoc (pre : List TokenPiece) (p : TokenPiece) :
    (pieceTokens (pre ++ [p])).length = (pieceTokens pre).length + p.tokens.length := by
  rw [pieceTokens, flatMap_append, length_append, flatMap_singleton]
  rfl

lemma textLoop_eq (hmtmd : a.hasMtmd = false) (hps : a.pieces = pre ++ ps)
    (hqs : b.pieces = pre ++ qs) (hi : (pieceTokens pre).length = i)
    (hn : min a.length b.length ≤ i + n) :
    textLoop a b (min a.length b.length) n i = i + (pieceTokens (commonPieces ps qs)).length := by
  induction n generalizing pre ps qs i with
  | zero => exact min_length_of_end hps hqs hi hn
  | succ n ih =>
    unfold textLoop
    split
    case isFalse hlt => exact min_length_of_end hps hqs hi (Nat.not_lt.mp hlt)
    case isTrue hlt =>
      obtain ⟨⟨p, ps, rfl⟩, q, qs, rfl⟩ := exists_heads hps hqs hi hlt
      have hp : p.Ok := a.ok p (by simp [hps])
      have hq : q.Ok := b.ok q (by simp [hqs])
      have hnone : p.chunk? = none := a.noMedia hmtmd p (by simp [hps])
      rw [getElem?_tokens hps hi, getElem?_tokens hqs hi]
      cases p with
      | media chunk => cases hnone
      | text token =>
        have hhead : (TokenPiece.text token).tokens[0]? = some token := rfl
        split
        case isTrue heq =>
          obtain rfl := hq.head.2 token heq.symm hp
          have hps' : a.pieces = (pre ++ [.text token]) ++ ps := by simp [hps]
          have hqs' : b.pieces = (pre ++ [.text token]) ++ qs := by simp [hqs]
          have hi' : (pieceTokens (pre ++ [.text token])).length = i + 1 := by
            rw [length_pieceTokens_snoc, hi]
            rfl
          rw [commonPieces, if_pos rfl, pieceTokens_cons, length_append, ← Nat.add_assoc]
          exact ih hps' hqs' hi' (by omega)
        case isFalse hne =>
          have hpq : TokenPiece.text token ≠ q := by
            rintro rfl
            exact hne hhead
          rw [commonPieces, if_neg hpq]
          rfl

lemma mediaLoop_eq (hps : a.pieces = pre ++ ps)
    (hqs : b.pieces = pre ++ qs) (hi : (pieceTokens pre).length = i)
    (hn : min a.length b.length ≤ i + n) :
    mediaLoop a b (min a.length b.length) n i = i + (pieceTokens (commonPieces ps qs)).length := by
  induction n generalizing pre ps qs i with
  | zero => exact min_length_of_end hps hqs hi hn
  | succ n ih =>
    unfold mediaLoop
    split
    case isFalse hlt => exact min_length_of_end hps hqs hi (Nat.not_lt.mp hlt)
    case isTrue hlt =>
      obtain ⟨⟨p, ps, rfl⟩, q, qs, rfl⟩ := exists_heads hps hqs hi hlt
      have hp : p.Ok := a.ok p (by simp [hps])
      have hq : q.Ok := b.ok q (by simp [hqs])
      have hokpre : ∀ r ∈ pre, r.Ok := fun r hr => a.ok r (by simp [hps, hr])
      have hstep : p = q → mediaLoop a b (min a.length b.length) n (i + p.tokens.length) =
          i + (pieceTokens (commonPieces (p :: ps) (q :: qs))).length := by
        rintro rfl
        have hpos := hp.length_pos
        have hps' : a.pieces = (pre ++ [p]) ++ ps := by simp [hps]
        have hqs' : b.pieces = (pre ++ [p]) ++ qs := by simp [hqs]
        have hi' : (pieceTokens (pre ++ [p])).length = i + p.tokens.length := by
          rw [length_pieceTokens_snoc, hi]
        rw [commonPieces, if_pos rfl, pieceTokens_cons, length_append, ← Nat.add_assoc]
        exact ih hps' hqs' hi' (by omega)
      have hstop : p ≠ q → i = i + (pieceTokens (commonPieces (p :: ps) (q :: qs))).length := by
        intro hpq
        rw [commonPieces, if_neg hpq]
        rfl
      rw [getElem?_tokens hps hi, getElem?_tokens hqs hi]
      split
      case isTrue hnull =>
        obtain ⟨ca, rfl⟩ := hp.head.1.mp hnull.1
        obtain ⟨cb, rfl⟩ := hq.head.1.mp hnull.2
        have hca : a.findChunk i = some ca := by
          rw [findChunk, hps, chunkAt_append hokpre hi]
          rfl
        have hcb : b.findChunk i = some cb := by
          rw [findChunk, hqs, chunkAt_append hokpre hi]
          rfl
        rw [hca, hcb]
        dsimp only
        split
        case isTrue heq =>
          have hcab : ca = cb := by
            cases ca
            cases cb
            simpa using heq
          have hlen : i + (ca.nTokens - 1) + 1 = i + (TokenPiece.media ca).tokens.length := by
            have hpos : 0 < ca.nTokens := hp
            rw [TokenPiece.tokens, length_replicate]
            omega
          rw [hlen]
          exact hstep (congrArg _ hcab)
        case isFalse hne =>
          refine hstop fun hpq => hne ?_
          cases hpq
          exact ⟨rfl, rfl⟩
      case isFalse hnull =>
        split
        case isTrue heq =>
          cases p with
          | media ca =>
            have hpn := hp.head.1.mpr ⟨ca, rfl⟩
            exact absurd ⟨hpn, heq.symm.trans hpn⟩ hnull
          | text token => exact hstep (hq.head.2 token heq.symm hp).symm
        case isFalse hne =>
          refine hstop fun hpq => hne ?_
          rw [hpq]

/-- The common prefix is that of the pieces. -/
lemma commonPrefix_eq :
    a.commonPrefix b = (pieceTokens (commonPieces a.pieces b.pieces)).length := by
  have hps : a.pieces = [] ++ a.pieces := rfl
  have hqs : b.pieces = [] ++ b.pieces := rfl
  have hi : (pieceTokens []).length = 0 := rfl
  unfold commonPrefix
  split
  · rw [mediaLoop_eq hps hqs hi (by omega), Nat.zero_add]
  · next h =>
    rw [textLoop_eq (by simpa using h) hps hqs hi (by omega), Nat.zero_add]

lemma commonPrefix_comm : a.commonPrefix b = b.commonPrefix a := by
  rw [commonPrefix_eq, commonPrefix_eq, commonPieces_comm]

/-- **The common prefix is all of a list exactly if the list is a prefix.** -/
theorem commonPrefix_eq_length_left : a.commonPrefix b = a.length ↔ a.IsPrefix b := by
  rw [commonPrefix_eq, IsPrefix, ← commonPieces_eq_left_iff]
  constructor
  · exact eq_of_prefix_of_length a.ok (commonPieces_prefix_left _ _)
  · intro h
    rw [h]
    rfl

lemma commonPrefix_eq_length_right : a.commonPrefix b = b.length ↔ b.IsPrefix a := by
  rw [commonPrefix_comm, commonPrefix_eq_length_left]

end ServerTokens

end Llama
