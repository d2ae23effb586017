import Llama.KvCache.Runs
import Llama.KvCache.Sequential

/-!
# The sequence methods, cell by cell

What the loops of the sequence methods leave in a cell depends on that cell alone, in every
state: nothing has to be known about the position maps or the used set.  `KvCells.Local`
says so of a call, and `forCells_cell` of a loop of such calls.

`seq_keep` runs its loop in the stream of the kept sequence and nowhere else, so it removes
the other sequences just when all other streams are free of them (`seqKeep_keepsOnly_iff`).
-/

namespace Llama

namespace KvCells

/-- A call for cell `i` applies `f` to it and leaves the other cells alone. -/
structure Local (op : ℕ → Op) (f : Cell → Cell) : Prop where
  size_eq : ∀ c i, (run c (op i)).size = c.size
  cell_eq : ∀ c i j, (run c (op i)).cell j = if j = i then f (c.cell i) else c.cell j

lemma local_of_update {op : ℕ → Op} {f : Cell → Cell}
    (hsize : ∀ c i, (run c (op i)).size = c.size)
    (hcell : ∀ c i, (run c (op i)).cell = Function.update c.cell i (f (c.cell i))) : Local op f :=
  ⟨hsize, fun c i j => by rw [hcell, Function.update_apply]⟩

lemma local_seqKeep (s : ℤ) : Local (fun i => .seqKeep i s) (fun x => x.seqKeep s) := by
  refine local_of_update (fun c i => ?_) fun c i => cell_seqKeep c i s
  simp only [run, seqKeep]
  split
  · rfl
  · split <;> rfl

lemma local_seqAdd (s : ℤ) : Local (fun i => .seqAdd i s) (fun x => x.seqAdd s) :=
  local_of_update (fun _ _ => rfl) fun c i => cell_seqAdd c i s

lemma local_posAdd (d : ℤ) : Local (fun i => .posAdd i d) (fun x => x.posAdd d) := by
  refine local_of_update (fun c i => ?_) fun c i => cell_posAdd c i d
  simp only [run, posAdd]
  split <;> rfl

lemma local_posDiv (d : ℤ) : Local (fun i => .posDiv i d) (fun x => x.posDiv d) :=
  local_of_update (fun _ _ => rfl) fun c i => cell_posDiv c i d

lemma local_posSet (p : ℤ) : Local (fun i => .posSet i p) (fun x => { x with pos := p }) :=
  local_of_update (fun _ _ => rfl) fun c i => cell_posSet c i p

lemma local_extSet (e : KvCellExt) : Local (fun i => .extSet i e) (fun x => { x with ext := e }) :=
  local_of_update (fun _ _ => rfl) fun c i => cell_extSet c i e

end KvCells

namespace KvCache

/-- From `kv` to `kv'` each cell of stream `strm` became `g` of what it was. -/
structure CellsBy (strm : ℕ) (g : ℕ → Cell → Cell) (kv kv' : KvCache) : Prop
    extends OnStream strm kv kv' where
  size_eq : (kv'.vCells strm).size = (kv.vCells strm).size
  cell_eq : ∀ j, (kv'.vCells strm).cell j = g j ((kv.vCells strm).cell j)

lemma CellsBy.refl' (strm : ℕ) (kv : KvCache) : CellsBy strm (fun _ x => x) kv kv :=
  ⟨.refl strm kv, rfl, fun _ => rfl⟩

variable {g : ℕ → Cell → Cell} {kv kv' : KvCache}

lemma CellsBy.trans' {strm : ℕ} {g' : ℕ → Cell → Cell} {kv'' : KvCache}
    (h : CellsBy strm g kv kv') (h' : CellsBy strm g' kv' kv'') :
    CellsBy strm (fun j x => g' j (g j x)) kv kv'' :=
  ⟨h.toOnStream.trans h'.toOnStream, h'.size_eq.trans h.size_eq,
    fun j => by rw [h'.cell_eq, h.cell_eq]⟩

lemma CellsBy.congr {strm : ℕ} {g' : ℕ → Cell → Cell} (h : CellsBy strm g kv kv')
    (hg : ∀ j, g j ((kv.vCells strm).cell j) = g' j ((kv.vCells strm).cell j)) :
    CellsBy strm g' kv kv' :=
  ⟨h.toOnStream, h.size_eq, fun j => (h.cell_eq j).trans (hg j)⟩

/-- The head is no part of the cells. -/
lemma CellsBy.setHead {strm : ℕ} (h : CellsBy strm g kv kv') (head : ℕ) :
    CellsBy strm g kv (kv'.setHead strm head) :=
  ⟨h.toOnStream.trans (onStream_setHead kv' strm head), h.size_eq, h.cell_eq⟩

lemma CellsBy.lowerHead {strm : ℕ} (h : CellsBy strm g kv kv') (head : ℕ) :
    CellsBy strm g kv (kv'.lowerHead strm head) := by
  unfold KvCache.lowerHead
  split
  · exact h.setHead head
  · exact h

lemma cellsBy_call (kv : KvCache) (strm i : ℕ) {op : ℕ → KvCells.Op} {f : Cell → Cell}
    (hop : KvCells.Local op f) :
    CellsBy strm (fun j x => if j = i then f x else x) kv (kv.call strm (op i)) := by
  refine ⟨onStream_call kv strm (op i), ?_, fun j => ?_⟩
  · rw [call_vCells_self, hop.size_eq]
  · rw [call_vCells_self, hop.cell_eq]
    by_cases hj : j = i
    · subst hj
      rfl
    · simp only [if_neg hj]

/-- **A loop of local calls** changes the selected cells, each by what it held. -/
theorem forCells_cell (kv : KvCache) (strm : ℕ) (sel : KvCells → ℕ → Bool) {op : ℕ → KvCells.Op}
    (frees : KvCells → ℕ → Bool) (q : Cell → Prop) [DecidablePred q] {f : Cell → Cell}
    (hop : KvCells.Local op f) (hsel : ∀ c i, sel c i = true ↔ q (c.cell i)) :
    CellsBy strm (fun j x => if j < (kv.vCells strm).size ∧ q x then f x else x) kv
      (kv.forCells strm sel op frees).1 := by
  suffices h : CellsBy strm
      (fun j x => if j < (kv.vCells strm).size then (if q x then f x else x) else x) kv
        (kv.forCells strm sel op frees).1 from h.congr fun j => by simp only [ite_and]
  refine Run.foldl_entries (c := (kv.vCells strm).cell)
    (R := fun g (r : KvCache × ℕ) => CellsBy strm g kv r.1) CellsBy.congr (.refl' strm kv)
    fun n _ g r h hself => ?_
  have hcell := (h.cell_eq n).trans hself
  by_cases hq : q ((kv.vCells strm).cell n)
  · have hsel' : sel (r.1.vCells strm) n = true := (hsel _ _).mpr (hcell ▸ hq)
    simp only [hsel', if_true]
    refine (h.trans' (cellsBy_call r.1 strm n hop)).congr fun j => ?_
    rw [if_pos hq]
    split
    · rename_i hj
      rw [hj, hself]
    · rfl
  · have hsel' : ¬ sel (r.1.vCells strm) n = true := fun h => hq (hcell ▸ (hsel _ _).mp h)
    simp only [if_neg hsel']
    refine h.congr fun j => ?_
    rw [if_neg hq]
    split
    · rename_i hj
      rw [hj, hself]
    · rfl

/-! ## `seq_keep` -/

lemma seqKeep_cell (kv : KvCache) (s : ℤ) : CellsBy (kv.prm.seqToStream s)
      (fun j x => if j < (kv.cellsOf s).size then x.seqKeep s else x) kv (kv.seqKeep s) := by
  have h := forCells_cell kv (kv.prm.seqToStream s) (fun _ _ => true)
    (fun c i => c.seqKeepEmpties i s) (fun _ => True) (KvCells.local_seqKeep s) (by simp)
  refine (h.congr fun j => ?_).lowerHead _
  simp only [and_true]
  rfl

/-- The cell is empty and names no sequence. -/
def IsFree (c : KvCells) (i : ℕ) : Prop := c.isEmpty i = true ∧ c.seq i = ∅

/-- From `kv` to `kv'`, no cell of any stream kept a sequence other than `s`, every cell of
`s` stayed one, at its position, and every other cell became empty. -/
def KeepsOnly (s : ℤ) (kv kv' : KvCache) : Prop :=
  ∀ t < kv.prm.nStream, ∀ i < (kv.vCells t).size, (∀ u ∈ (kv'.vCells t).seq i, u = s) ∧
    (s ∈ (kv.vCells t).seq i →
      s ∈ (kv'.vCells t).seq i ∧ (kv'.vCells t).pos i = (kv.vCells t).pos i) ∧
    (s ∉ (kv.vCells t).seq i → IsFree (kv'.vCells t) i)

lemma KeepsOnly.eq_of_seqHas {s : ℤ} (h : KeepsOnly s kv kv') {t i : ℕ} {u : ℤ}
    (ht : t < kv.prm.nStream) (hi : i < (kv.vCells t).size)
    (hu : (kv'.vCells t).seqHas i u = true) : u = s :=
  (h t ht i hi).1 u (of_decide_eq_true hu)

/-- The cells of the other streams are free, apart from any that hold `s` alone, and in the
stream of `s` no occupied cell is without a sequence. -/
def OthersFree (kv : KvCache) (s : ℤ) : Prop :=
  ∀ t < kv.prm.nStream, ∀ i < (kv.vCells t).size, if t = kv.prm.seqToStream s then
      (kv.vCells t).seq i = ∅ → (kv.vCells t).isEmpty i = true
    else IsFree (kv.vCells t) i ∨ (kv.vCells t).seq i = {s}

/-- In the stream of the sequence, a cell ends as it should unless it is occupied by none. -/
lemma keepsOnly_cell_iff {s : ℤ} {x : Cell} : ((∀ u ∈ (x.seqKeep s).seq, u = s) ∧
      (s ∈ x.seq → s ∈ (x.seqKeep s).seq ∧ (x.seqKeep s).pos = x.pos) ∧
      (s ∉ x.seq → (x.seqKeep s).pos = -1 ∧ (x.seqKeep s).seq = ∅)) ↔
    (x.seq = ∅ → x.pos = -1) := by
  by_cases hs : s ∈ x.seq
  · have hne : x.seq ≠ ∅ := Finset.ne_empty_of_mem hs
    simp [Cell.seqKeep, hs, hne]
  · by_cases hne : x.seq.Nonempty
    · simp [Cell.seqKeep, hs, hne, Cell.empty, hne.ne_empty]
    · have hempty := Finset.not_nonempty_iff_eq_empty.mp hne
      simp [Cell.seqKeep, hempty]

/-- In another stream nothing changes. -/
lemma keepsOnly_frame_iff {s : ℤ} {c : KvCells} {i : ℕ} :
    ((∀ u ∈ c.seq i, u = s) ∧ (s ∈ c.seq i → s ∈ c.seq i ∧ c.pos i = c.pos i) ∧
      (s ∉ c.seq i → IsFree c i)) ↔ (IsFree c i ∨ c.seq i = {s}) := by
  constructor
  · rintro ⟨hall, -, hfree⟩
    by_cases hs : s ∈ c.seq i
    · exact .inr (Finset.eq_singleton_iff_unique_mem.mpr ⟨hs, hall⟩)
    · exact .inl (hfree hs)
  · rintro (hfree | hone)
    · exact ⟨fun u hu => by simp [hfree.2] at hu, fun hs => ⟨hs, rfl⟩, fun _ => hfree⟩
    · exact ⟨fun u hu => by simpa [hone] using hu, fun hs => ⟨hs, rfl⟩,
        fun hs => absurd (by simp [hone]) hs⟩

/-- **`seq_keep` keeps only the sequence** just when the streams it does not look at are
free of others. -/
theorem seqKeep_keepsOnly_iff (kv : KvCache) (s : ℤ) :
    KeepsOnly s kv (kv.seqKeep s) ↔ kv.OthersFree s := by
  have h := seqKeep_cell kv s
  refine forall₂_congr fun t _ => forall₂_congr fun i hi => ?_
  by_cases ht : t = kv.prm.seqToStream s
  · subst ht
    have hcell : ((kv.seqKeep s).vCells (kv.prm.seqToStream s)).cell i =
        ((kv.vCells (kv.prm.seqToStream s)).cell i).seqKeep s := by
      rw [h.cell_eq]
      exact if_pos hi
    have hpos : ((kv.seqKeep s).vCells (kv.prm.seqToStream s)).pos i =
        (((kv.vCells (kv.prm.seqToStream s)).cell i).seqKeep s).pos := congrArg Cell.pos hcell
    have hseq : ((kv.seqKeep s).vCells (kv.prm.seqToStream s)).seq i =
        (((kv.vCells (kv.prm.seqToStream s)).cell i).seqKeep s).seq := congrArg Cell.seq hcell
    simp only [IsFree, KvCells.isEmpty, decide_eq_true_eq, hpos, hseq]
    exact keepsOnly_cell_iff
  · rw [h.cells t ht, if_neg ht]
    exact keepsOnly_frame_iff

/-- One token of a sequence. -/
def seqToken (s : ℤ) : LlamaBatch :=
  { BatchAllocr.oneToken with nSeqId := some fun _ => 1, seqId := some fun _ _ => s }

/-- The ubatch of this token, at position 0. -/
def seqUbatch (s : ℤ) : UBatch :=
  ((BatchAllocr.ofFull 1 (BatchAllocr.fill (seqToken s) none 2 false) 0 2).ubatchAdd
    [0] 1 false).1

lemma accepts_seqUbatch {s : ℤ} (hs : s = 0 ∨ s = 1) : twoStreams.Accepts (seqUbatch s) := by
  have hacc : (BatchAllocr.init 1 (seqToken s) 10 none 0 2 false).isSome = true := by
    rcases hs with rfl | rfl <;> decide +kernel
  obtain ⟨a, ha⟩ := Option.isSome_iff_exists.mp hacc
  refine ⟨seqToken s, 10, none, 0, false, a, ha, [0], 1, false, by simp, ?_, ?_⟩
  · rw [BatchAllocr.init_eq ha]
    intro i hi
    rw [List.mem_singleton.mp hi]
    exact Nat.one_pos
  · rw [BatchAllocr.init_eq ha]
    rfl

lemma asserts_seqUbatch {s : ℤ} (hs : s = 0 ∨ s = 1) :
    (Op.place (seqUbatch s)).Asserts (new twoStreams) := by
  refine ⟨accepts_seqUbatch hs, ?_⟩
  rcases hs with rfl | rfl <;> decide +kernel

/-- A cache with one token, of sequence 1. -/
def oneSeqCache : KvCache := (new twoStreams).place (seqUbatch 1)

/-- A token of sequence 1 stays in its stream when only sequence 0 is to be kept. -/
theorem not_keepsOnly_seqKeep : Run.Guarded run (fun kv op => op.Asserts kv) (new twoStreams)
        [.place (seqUbatch 1), .seqKeep 0] ∧
      ¬ KeepsOnly 0 oneSeqCache (oneSeqCache.seqKeep 0) := by
  refine ⟨⟨asserts_seqUbatch (.inr rfl), ?_, trivial⟩, fun h => ?_⟩
  · change oneSeqCache.prm.SeqOk 0
    decide +kernel
  · have hstay : ((oneSeqCache.seqKeep 0).vCells 1).seqHas 0 1 = true := by decide +kernel
    have hstream : 1 < oneSeqCache.prm.nStream := by decide +kernel
    have hcell : 0 < (oneSeqCache.vCells 1).size := by decide +kernel
    exact absurd (h.eq_of_seqHas hstream hcell hstay) (by decide)

end KvCache
end Llama
