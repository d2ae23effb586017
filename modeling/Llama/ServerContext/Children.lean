import Llama.ServerContext.Moves
import Mathlib.Data.List.Induction
import Mathlib.Data.List.Nodup

/-!
# The memory that children are given

`copy_state_to` gives a child the memory and the prompt of the parent.  The parent is in the state
`SLOT_STATE_DONE_PROMPT` as soon as its last token is in the batch, and the children are activated
behind each sub-batch that was decoded.  So the memory is the whole prompt if and only if no token
of the parent is behind that sub-batch.
-/

namespace Llama

open List Function

/-- The tasks of the slots. -/
structure TasksOk (tasks : ℕ → Option CmplTask) (launched : List ℤ) : Prop where
  known : ∀ {k task}, tasks k = some task → task.id ∈ launched
  parentKnown : ∀ {k task id}, tasks k = some task → task.idParent = some id → id ∈ launched
  leaf : ∀ {k task}, tasks k = some task → task.idParent ≠ none → task.nChildTasks = 0
  unique : ∀ {i j ti tj}, tasks i = some ti → tasks j = some tj → ti.id = tj.id → i = j
  shared : ∀ {i j ti tj}, tasks i = some ti → tasks j = some tj → tj.idParent = some ti.id →
    tj.tokens = ti.tokens

/-- Released slots have no task. -/
lemma TasksOk.mono {tasks tasks' : ℕ → Option CmplTask} {launched : List ℤ}
    (h : TasksOk tasks launched) (hsub : ∀ k task, tasks' k = some task → tasks k = some task) :
    TasksOk tasks' launched where
  known hk := h.known (hsub _ _ hk)
  parentKnown hk := h.parentKnown (hsub _ _ hk)
  leaf hk := h.leaf (hsub _ _ hk)
  unique hi hj := h.unique (hsub _ _ hi) (hsub _ _ hj)
  shared hi hj := h.shared (hsub _ _ hi) (hsub _ _ hj)

namespace ServerLoop

/-- The invariant. -/
structure Inv (s : ServerLoop) : Prop where
  slots : ∀ k, SlotOk (s.slots k) (s.memory k) (s.pending k)
  tasks : TasksOk (fun k => (s.slots k).task) s.launched

variable {p : LoopParams} {s s' : ServerLoop} {op : LoopOp} {k : ℕ}

/-- If the step decodes a sub-batch, then the sub-batch reaches up to the last token of each parent
that is done and for which a child waits. -/
def Covers (p : LoopParams) (s : ServerLoop) (op : LoopOp) : Prop :=
  match s.phase, op with
  | .decoding off nBatch, .decode .ok =>
    ∀ i < p.nSlots, ∀ j < p.nSlots, (s.slots i).state = .donePrompt → (s.slots i).isParent →
      (s.slots j).waitsFor (s.slots i) →
        ∀ t ∈ s.batch.drop (off + s.nTokens off nBatch), t.idSlot ≠ i
  | _, _ => True

/-- A child that is activated by the step is given the memory of its parent, and that memory is
the prompt of the parent, and of the child, and the whole of the tokens of its task. -/
def GivesWholePrompt (s s' : ServerLoop) : Prop :=
  ∀ j, (s.slots j).state = .waitOther → (s'.slots j).state = .donePrompt →
    ∃ i parent task, (s'.slots i).task = some parent ∧ (s'.slots j).task = some task ∧
      task.idParent = some parent.id ∧ s'.memory j = s'.memory i ∧
      s'.memory i = parent.tokens ∧ (s'.slots j).prompt = s'.memory j ∧
      s'.memory j = task.tokens

/-- Moves keep the invariant. -/
lemma Inv.moves {P : Prop} (h : s.Inv) (hmoves : Moves P s s') (hP : P) : s'.Inv := by
  refine ⟨fun k => hmoves.ok hP k (h.slots k), ?_⟩
  rw [hmoves.launched]
  exact h.tasks.mono hmoves.task

/-! ## Activating the children -/

/-- The slot `i` has a parent that is done, and the slot `j` waits for it. -/
def Activates (p : LoopParams) (s : ServerLoop) (i j : ℕ) : Prop :=
  ((s.slots i).state = .donePrompt ∧ (s.slots i).isParent) ∧ j < p.nSlots ∧
    (s.slots j).waitsFor (s.slots i)

/-- The state of the slot `i` was copied to the slot `j`. -/
def Copied (s s' : ServerLoop) (i j : ℕ) : Prop :=
  s'.slots j = (s.slots j).activated (s.slots i) ∧ s'.memory j = s.memory i

/-- The slot `j` did not change. -/
def Same (s s' : ServerLoop) (j : ℕ) : Prop := s'.slots j = s.slots j ∧ s'.memory j = s.memory j

/-- Only slots and memories change. -/
def Frame (s s' : ServerLoop) : Prop :=
  s'.batch = s.batch ∧ s'.phase = s.phase ∧ s'.launched = s.launched

lemma state_of_waitsFor {slot parent : CmplSlot} (h : slot.waitsFor parent) :
    slot.state = .waitOther := of_decide_eq_true (Bool.and_eq_true_iff.mp h).1

lemma exists_of_waitsFor {slot parent : CmplSlot} (h : slot.waitsFor parent) :
    ∃ parentTask task, parent.task = some parentTask ∧ slot.task = some task ∧
      task.idParent = some parentTask.id := by
  obtain ⟨parentTask, hparent, hid⟩ := (Option.any_eq_true _ _).mp (Bool.and_eq_true_iff.mp h).2
  obtain ⟨task, htask, hid⟩ := Option.bind_eq_some_iff.mp (of_decide_eq_true hid)
  exact ⟨parentTask, task, hparent, htask, hid⟩

/-- A slot that waits has no child tasks. -/
lemma isParent_of_waitsFor {slot parent : CmplSlot} {tasks : ℕ → Option CmplTask}
    {launched : List ℤ} {k : ℕ} (htasks : TasksOk tasks launched) (hk : tasks k = slot.task)
    (h : slot.waitsFor parent) : slot.isParent = false := by
  obtain ⟨_, task, -, htask, hid⟩ := exists_of_waitsFor h
  rw [CmplSlot.isParent, htask]
  refine decide_eq_false ?_
  rw [htasks.leaf (hk.trans htask) (by rw [hid]; exact Option.some_ne_none _)]
  exact Nat.lt_irrefl 0

/-- The copies to some slots. -/
lemma foldl_copyStateTo {i : ℕ} {js : List ℕ} (hi : i ∉ js) (s : ServerLoop) :
    Frame s (js.foldl (fun s j => s.copyStateTo i j) s) ∧
      ∀ j, (j ∈ js → Copied s (js.foldl (fun s j => s.copyStateTo i j) s) i j) ∧
        (j ∉ js → Same s (js.foldl (fun s j => s.copyStateTo i j) s) j) := by
  induction js generalizing s with
  | nil => exact ⟨⟨rfl, rfl, rfl⟩, fun j => ⟨fun hj => absurd hj not_mem_nil, fun _ => ⟨rfl, rfl⟩⟩⟩
  | cons j' js ih =>
    obtain ⟨hne, hnot⟩ := ne_and_not_mem_of_not_mem_cons hi
    obtain ⟨hframe, hrest⟩ := ih hnot (s.copyStateTo i j')
    have hslot : (s.copyStateTo i j').slots i = s.slots i := update_of_ne hne ..
    have hmemory : (s.copyStateTo i j').memory i = s.memory i := update_of_ne hne ..
    refine ⟨hframe, fun j => ?_⟩
    rcases eq_or_ne j j' with rfl | hj
    · have hself : Copied s (s.copyStateTo i j) i j :=
        ⟨update_self .., update_self ..⟩
      refine ⟨fun _ => ?_, fun hmem => absurd mem_cons_self hmem⟩
      by_cases hmem : j ∈ js
      · obtain ⟨hslots, hmem⟩ := (hrest j).1 hmem
        rw [hslot, hself.1] at hslots
        exact ⟨hslots, hmem.trans hmemory⟩
      · obtain ⟨hslots, hmem⟩ := (hrest j).2 hmem
        exact ⟨hslots.trans hself.1, hmem.trans hself.2⟩
    · have hother : Same s (s.copyStateTo i j') j :=
        ⟨update_of_ne hj .., update_of_ne hj ..⟩
      refine ⟨fun hmem => ?_, fun hmem => ?_⟩
      · obtain ⟨hslots, hmem⟩ := (hrest j).1 ((mem_cons.mp hmem).resolve_left hj)
        rw [hslot, hother.1] at hslots
        exact ⟨hslots, hmem.trans hmemory⟩
      · obtain ⟨hslots, hmem⟩ := (hrest j).2 fun h => hmem (mem_cons_of_mem _ h)
        exact ⟨hslots.trans hother.1, hmem.trans hother.2⟩

/-- The children of some parents were activated. -/
def Activated (p : LoopParams) (s : ServerLoop) (is : List ℕ) (s' : ServerLoop) : Prop :=
  Frame s s' ∧ ∀ j, (∃ i ∈ is, Activates p s i j ∧ Copied s s' i j) ∨
    (∀ i ∈ is, ¬ Activates p s i j) ∧ Same s s' j

/-- A slot that does not wait does not change. -/
lemma Activated.same {is : List ℕ} (h : Activated p s is s')
    {j : ℕ} (hj : (s.slots j).state ≠ .waitOther) : Same s s' j := by
  rcases h.2 j with ⟨i, -, hactivates, -⟩ | ⟨-, hsame⟩
  · exact absurd (state_of_waitsFor hactivates.2.2) hj
  · exact hsame

/-- The round for one slot. -/
lemma Activated.activateChildren {is : List ℕ} (h : Activated p s is s') (hinv : s.Inv) (i : ℕ) :
    Activated p s (is ++ [i]) (s'.activateChildren p i) := by
  have hmem : ∀ {i'}, i' ∈ is ++ [i] ↔ i' ∈ is ∨ i' = i := fun {i'} => by
    rw [mem_append, mem_singleton]
  by_cases hparent : (s.slots i).state = .donePrompt ∧ (s.slots i).isParent
  · -- a parent that is done did not change
    have hstate : (s.slots i).state ≠ .waitOther := by
      rw [hparent.1]
      exact fun h => (by cases h)
    obtain ⟨hslot, hmemory⟩ := h.same hstate
    rw [ServerLoop.activateChildren, if_pos (by rw [hslot]; exact hparent)]
    have hchildren : ∀ {j}, j ∈ s'.children p i ↔
        j < p.nSlots ∧ (s'.slots j).waitsFor (s.slots i) := fun {j} => by
      rw [children, mem_filter, mem_range, hslot]
    have hi : i ∉ s'.children p i := fun hi => by
      have hwaits := state_of_waitsFor (hchildren.mp hi).2
      rw [hslot] at hwaits
      exact hstate hwaits
    obtain ⟨hframe, hcopies⟩ := foldl_copyStateTo hi s'
    refine ⟨⟨hframe.1.trans h.1.1, hframe.2.1.trans h.1.2.1, hframe.2.2.trans h.1.2.2⟩, fun j => ?_⟩
    by_cases hj : j ∈ s'.children p i
    · obtain ⟨hlt, hwaits⟩ := hchildren.mp hj
      obtain ⟨hslots, hmem'⟩ := (hcopies j).1 hj
      refine .inl ⟨i, hmem.mpr (.inr rfl), ?_⟩
      rcases h.2 j with ⟨i', -, -, hcopied⟩ | ⟨-, hsame⟩
      · rw [hcopied.1] at hwaits
        cases state_of_waitsFor hwaits
      · rw [hsame.1] at hwaits hslots
        rw [hslot] at hslots
        exact ⟨⟨hparent, hlt, hwaits⟩, hslots, hmem'.trans hmemory⟩
    · obtain ⟨hslots, hmem'⟩ := (hcopies j).2 hj
      rcases h.2 j with ⟨i', hi', hactivates, hcopied⟩ | ⟨hnot, hsame⟩
      · exact .inl ⟨i', hmem.mpr (.inl hi'), hactivates, hslots.trans hcopied.1,
          hmem'.trans hcopied.2⟩
      · refine .inr ⟨fun i' hi' => ?_, hslots.trans hsame.1, hmem'.trans hsame.2⟩
        rcases hmem.mp hi' with hi' | rfl
        · exact hnot i' hi'
        · intro hactivates
          exact hj (hchildren.mpr ⟨hactivates.2.1, by rw [hsame.1]; exact hactivates.2.2⟩)
  · -- a slot that was activated has no children
    have hnot : ¬ ((s'.slots i).state = .donePrompt ∧ (s'.slots i).isParent) := by
      rcases h.2 i with ⟨i', -, hactivates, hcopied⟩ | ⟨-, hsame⟩
      · rw [hcopied.1]
        intro hdone
        have hleaf := isParent_of_waitsFor (k := i) hinv.tasks rfl hactivates.2.2
        exact Bool.false_ne_true (hleaf.symm.trans hdone.2)
      · rw [hsame.1]
        exact hparent
    rw [ServerLoop.activateChildren, if_neg hnot]
    refine ⟨h.1, fun j => ?_⟩
    rcases h.2 j with ⟨i', hi', hactivates⟩ | ⟨hother, hsame⟩
    · exact .inl ⟨i', hmem.mpr (.inl hi'), hactivates⟩
    · refine .inr ⟨fun i' hi' => ?_, hsame⟩
      rcases hmem.mp hi' with hi' | rfl
      · exact hother i' hi'
      · exact fun hactivates => hparent hactivates.1

/-- All the children of the parents that are done are activated. -/
lemma activated_activate (hinv : s.Inv) : Activated p s (range p.nSlots) (s.activate p) := by
  unfold activate
  generalize range p.nSlots = is
  induction is using reverseRecOn with
  | nil => exact ⟨⟨rfl, rfl, rfl⟩, fun j => .inr ⟨fun i hi => absurd hi not_mem_nil, rfl, rfl⟩⟩
  | append_singleton is i ih =>
    rw [foldl_append]
    exact ih.activateChildren hinv i

/-- The tasks do not change. -/
lemma Activated.task {is : List ℕ} (h : Activated p s is s') (j : ℕ) :
    (s'.slots j).task = (s.slots j).task := by
  rcases h.2 j with ⟨i, -, -, hcopied⟩ | ⟨-, hsame⟩
  · rw [hcopied.1]
    rfl
  · rw [hsame.1]

/-- The parent of a slot that is activated has a task, and its tokens are those of the child. -/
lemma Inv.parent (hinv : s.Inv) {i j : ℕ} (h : Activates p s i j) :
    ∃ parent task, (s.slots i).task = some parent ∧ (s.slots j).task = some task ∧
      task.idParent = some parent.id ∧ task.tokens = parent.tokens ∧
      (s.slots i).prompt = parent.tokens := by
  obtain ⟨parent, task, hparent, htask, hid⟩ := exists_of_waitsFor h.2.2
  obtain ⟨parent', hparent', hprompt⟩ := (hinv.slots i).done h.1.1
  obtain rfl : parent' = parent := Option.some.inj (hparent'.symm.trans hparent)
  exact ⟨parent', task, hparent, htask, hid, hinv.tasks.shared hparent htask hid, hprompt⟩

/-- Activating keeps the invariant if the parents have no tokens in the rest of the batch. -/
lemma Inv.activate (hinv : s.Inv)
    (hcovers : ∀ i j, i < p.nSlots → Activates p s i j → s.pending i = []) :
    (s.activate p).Inv := by
  have hactivated := activated_activate (p := p) hinv
  obtain ⟨hbatch, hphase, hlaunched⟩ := hactivated.1
  have hrest : (s.activate p).rest = s.rest := by rw [rest, rest, hbatch, hphase]
  refine ⟨fun j => ?_, ?_⟩
  · rw [pending, hrest]
    rcases hactivated.2 j with ⟨i, hi, hactivates, hslots, hmemory⟩ | ⟨-, hslots, hmemory⟩
    · rw [hslots, hmemory]
      have hnil : s.pending j = [] := (hinv.slots j).waiting (.inl (state_of_waitsFor hactivates.2.2))
      have hexact := (hinv.slots i).exact (.inr (.inl hactivates.1.1))
      rw [hcovers i j (mem_range.mp hi) hactivates, append_nil] at hexact
      obtain ⟨parent, task, -, htask, -, htokens, hprompt⟩ := hinv.parent hactivates
      have heq : ((s.slots j).activated (s.slots i)).prompt = s.memory i ++ s.pending j := by
        rw [hnil, append_nil]
        exact hexact
      exact ⟨heq ▸ prefix_rfl, fun _ => heq, fun _ => hnil, fun h => (by cases h),
        fun _ => ⟨task, htask, hprompt.trans htokens.symm⟩⟩
    · rw [hslots, hmemory]
      exact hinv.slots j
  · rw [hlaunched]
    exact hinv.tasks.mono fun j task htask => (hactivated.task j).symm.trans htask

/-! ## Launching -/

/-- The launch of some children: the slots that are given a child task, and the others. -/
lemma launchChildren_eq (task : CmplTask) (children : List (ℕ × ℤ)) (s : ServerLoop) :
    (s.launchChildren task children).memory = s.memory ∧
    (s.launchChildren task children).phase = s.phase ∧
    (∀ id, id ∈ (s.launchChildren task children).launched ↔
      id ∈ children.map Prod.snd ∨ id ∈ s.launched) ∧
    ∀ i, (∃ c ∈ children, c.1 = i ∧ (s.launchChildren task children).slots i =
        (s.slots i).launch (task.child c.2)) ∨
      i ∉ children.map Prod.fst ∧ (s.launchChildren task children).slots i = s.slots i := by
  induction children generalizing s with
  | nil =>
    refine ⟨rfl, rfl, fun id => ?_, fun i => .inr ⟨not_mem_nil, rfl⟩⟩
    exact ⟨.inr, fun h => h.resolve_left not_mem_nil⟩
  | cons c children ih =>
    obtain ⟨hmemory, hphase, hlaunched, hslots⟩ := ih (s.launchSlot c.1 (task.child c.2))
    refine ⟨hmemory, hphase, fun id => ?_, fun i => ?_⟩
    · refine (hlaunched id).trans ?_
      show _ ∨ id ∈ c.2 :: s.launched ↔ id ∈ c.2 :: children.map Prod.snd ∨ _
      rw [mem_cons, mem_cons, or_left_comm, or_assoc]
    · have hi := hslots i
      rcases eq_or_ne i c.1 with rfl | hne
      · have hself : (s.launchSlot c.1 (task.child c.2)).slots c.1 =
            (s.slots c.1).launch (task.child c.2) := update_self ..
        rw [hself] at hi
        rcases hi with ⟨c', hc', heq, hslot⟩ | ⟨-, hslot⟩
        · exact .inl ⟨c', mem_cons_of_mem _ hc', heq, hslot⟩
        · exact .inl ⟨c, mem_cons_self, rfl, hslot⟩
      · have hother : (s.launchSlot c.1 (task.child c.2)).slots i = s.slots i :=
          update_of_ne hne ..
        rw [hother] at hi
        rcases hi with ⟨c', hc', heq, hslot⟩ | ⟨hnot, hslot⟩
        · exact .inl ⟨c', mem_cons_of_mem _ hc', heq, hslot⟩
        · refine .inr ⟨fun hmem => ?_, hslot⟩
          rcases mem_cons.mp hmem with heq | hmem
          · exact hne heq
          · exact hnot hmem

/-- A slot that was launched has the memory that it had. -/
lemma slotOk_launch {slot : CmplSlot} {memory : List ℤ} (task : CmplTask)
    (h : slot.prompt <+: memory) : SlotOk (slot.launch task) memory [] := by
  have hstate : (slot.launch task).state = .waitOther ∨ (slot.launch task).state = .started := by
    unfold CmplSlot.launch
    split_ifs with hchild
    · exact .inl rfl
    · exact .inr rfl
  refine ⟨by rw [append_nil]; exact h, ?_, fun _ => rfl, ?_, ?_⟩
  · rintro (h | h | h) <;> rw [h] at hstate <;> exact absurd hstate (by decide)
  · intro h
    rw [h] at hstate
    exact absurd hstate (by decide)
  · intro h
    rw [h] at hstate
    exact absurd hstate (by decide)

/-- Where a task comes from. -/
inductive TaskOf (s : ServerLoop) (k : ℕ) (task : CmplTask) (children : List (ℕ × ℤ)) (i : ℕ) :
    CmplTask → Prop
  | parent (h : i = k) : TaskOf s k task children i task
  | child {c : ℕ × ℤ} (hc : c ∈ children) (h : c.1 = i) : TaskOf s k task children i (task.child c.2)
  | old {ti : CmplTask} (h : (s.slots i).task = some ti) : TaskOf s k task children i ti

lemma slots_launch (s : ServerLoop) (k : ℕ) (task : CmplTask) (children : List (ℕ × ℤ)) (i : ℕ) :
    (s.launch k task children).slots i = s.slots i ∨
      ∃ ti, (s.launch k task children).slots i = (s.slots i).launch ti ∧
        TaskOf s k task children i ti := by
  obtain ⟨-, -, -, hslots⟩ := launchChildren_eq task children s
  rcases eq_or_ne i k with rfl | hne
  · refine .inr ⟨task, ?_, .parent rfl⟩
    have hself : (s.launch i task children).slots i =
        ((s.launchChildren task children).slots i).launch task := update_self ..
    rw [hself]
    rcases hslots i with ⟨c, -, -, hslot⟩ | ⟨-, hslot⟩
    · rw [hslot]
      rfl
    · rw [hslot]
  · have hother : (s.launch k task children).slots i =
        (s.launchChildren task children).slots i := update_of_ne hne ..
    rw [hother]
    rcases hslots i with ⟨c, hc, heq, hslot⟩ | ⟨-, hslot⟩
    · exact .inr ⟨task.child c.2, hslot, .child hc heq⟩
    · exact .inl hslot

lemma taskOf_launch {task ti : CmplTask} {children : List (ℕ × ℤ)} {i : ℕ}
    (h : ((s.launch k task children).slots i).task = some ti) : TaskOf s k task children i ti := by
  rcases slots_launch s k task children i with hslot | ⟨ti', hslot, hof⟩
  · rw [hslot] at h
    exact .old h
  · rw [hslot] at h
    obtain rfl : ti' = ti := Option.some.inj h
    exact hof

/-- **Launching** a task with new ids keeps the invariant. -/
theorem Inv.launch (hinv : s.Inv) (hphase : s.phase = .between) {task : CmplTask}
    {children : List (ℕ × ℤ)} (hids : (task.id :: children.map Prod.snd).Nodup)
    (hfresh : ∀ id ∈ task.id :: children.map Prod.snd, id ∉ s.launched)
    (hnone : task.idParent = none) : (s.launch k task children).Inv := by
  obtain ⟨hmemory, hphase', hlaunched, -⟩ := launchChildren_eq task children s
  have hrest : (s.launch k task children).rest = [] := by
    show (s.launchChildren task children).rest = []
    rw [rest, hphase', hphase]
  have hmem : ∀ {id}, id ∈ (s.launch k task children).launched ↔
      id = task.id ∨ id ∈ children.map Prod.snd ∨ id ∈ s.launched := fun {id} =>
    mem_cons.trans (or_congr_right (hlaunched id))
  have hold : ∀ {i ti}, (s.slots i).task = some ti → ti.id ≠ task.id ∧
      ∀ c ∈ children, ti.id ≠ c.2 := fun h => by
    have hknown := hinv.tasks.known h
    refine ⟨fun heq => hfresh _ mem_cons_self (heq ▸ hknown), fun c hc heq => ?_⟩
    exact hfresh _ (mem_cons_of_mem _ (mem_map_of_mem hc)) (heq ▸ hknown)
  have hchild : ∀ c ∈ children, c.2 ≠ task.id := fun c hc heq =>
    (nodup_cons.mp hids).1 (heq ▸ mem_map_of_mem hc)
  have hchildren := inj_on_of_nodup_map (nodup_cons.mp hids).2
  refine ⟨fun i => ?_, ?_⟩
  · have hi := hinv.slots i
    rw [pending, rest, hphase] at hi
    have hheld := hi.held
    rw [tokensOf_nil, append_nil] at hheld
    rw [pending, hrest]
    show SlotOk _ ((s.launchChildren task children).memory i) []
    rw [hmemory]
    rcases slots_launch s k task children i with hslot | ⟨ti, hslot, -⟩
    · rw [hslot]
      exact hi
    · rw [hslot]
      exact slotOk_launch ti hheld
  · constructor
    · intro i ti hi
      rw [hmem]
      cases taskOf_launch hi with
      | parent h => exact .inl rfl
      | child hc h => exact .inr (.inl (mem_map_of_mem hc))
      | old h => exact .inr (.inr (hinv.tasks.known h))
    · intro i ti id hi hid
      rw [hmem]
      cases taskOf_launch hi with
      | parent h =>
        rw [hnone] at hid
        cases hid
      | child hc h => exact .inl (Option.some.inj hid).symm
      | old h => exact .inr (.inr (hinv.tasks.parentKnown h hid))
    · intro i ti hi hne
      cases taskOf_launch hi with
      | parent h => exact absurd hnone hne
      | child hc h => rfl
      | old h => exact hinv.tasks.leaf h hne
    · intro i j ti tj hi hj heq
      cases taskOf_launch hi with
      | parent h =>
        cases taskOf_launch hj with
        | parent h' => exact h.trans h'.symm
        | child hc h' => exact absurd heq.symm (hchild _ hc)
        | old h' => exact absurd heq.symm (hold h').1
      | child hc h =>
        cases taskOf_launch hj with
        | parent h' => exact absurd heq (hchild _ hc)
        | child hc' h' =>
          rw [← h, ← h', hchildren hc hc' heq]
        | old h' => exact absurd heq.symm ((hold h').2 _ hc)
      | old h =>
        cases taskOf_launch hj with
        | parent h' => exact absurd heq (hold h).1
        | child hc h' => exact absurd heq ((hold h).2 _ hc)
        | old h' => exact hinv.tasks.unique h h' heq
    · intro i j ti tj hi hj hid
      cases taskOf_launch hj with
      | parent h =>
        rw [hnone] at hid
        cases hid
      | child hc h =>
        have heq : task.id = ti.id := Option.some.inj hid
        cases taskOf_launch hi with
        | parent h' => rfl
        | child hc' h' => exact absurd heq.symm (hchild _ hc')
        | old h' => exact absurd heq.symm (hold h').1
      | old h =>
        have hknown := hinv.tasks.parentKnown h hid
        cases taskOf_launch hi with
        | parent h' => exact absurd hknown (hfresh _ mem_cons_self)
        | child hc' h' =>
          exact absurd hknown (hfresh _ (mem_cons_of_mem _ (mem_map_of_mem hc')))
        | old h' => exact hinv.tasks.shared h' h hid

/-- The parents that are done have no tokens behind the sub-batch. -/
lemma Covers.pending {off nBatch i j : ℕ} (h : s.Covers p (.decode .ok))
    (hphase : s.phase = .decoding off nBatch) (hi : i < p.nSlots)
    (hactivates : Activates p (s.processed off nBatch) i j) :
    (s.processed off nBatch).pending i = [] := by
  unfold Covers at h
  rw [hphase] at h
  exact tokensOf_eq_nil_iff.mpr
    (h i hi j hactivates.2.1 hactivates.1.1 hactivates.1.2 hactivates.2.2)

lemma Inv.processed {off nBatch : ℕ} (h : s.Inv) (hphase : s.phase = .decoding off nBatch) :
    (s.processed off nBatch).Inv :=
  h.moves (moves_processed hphase) trivial

/-- **One step** keeps the invariant. -/
theorem Inv.step (h : s.Inv) (hunbroken : s.Unbroken op) (hcovers : s.Covers p op)
    (hs : s.step p op = some s') : s'.Inv := by
  rcases moves_of_step hs with ⟨-, hmoves⟩ | ⟨hphase, k, task, children, rfl⟩ |
    ⟨off, nBatch, hphase, rfl, rfl⟩
  · exact h.moves hmoves hunbroken
  · unfold ServerLoop.step at hs
    rw [hphase] at hs
    dsimp only at hs
    split_ifs at hs with hguard
    cases hs
    exact h.launch hphase hguard.2.2.1 hguard.2.2.2.1 hguard.2.2.2.2.1
  · exact (h.processed hphase).activate fun i j hi => hcovers.pending hphase hi

lemma inv_init : init.Inv := by
  refine ⟨fun k => .of_idle rfl nil_prefix, ?_⟩
  constructor
  · intro k task h
    cases h
  · intro k task id h
    cases h
  · intro k task h
    cases h
  · intro i j ti tj h
    cases h
  · intro i j ti tj h
    cases h

/-- **Every run** keeps the invariant, if no round is broken off too early and every sub-batch
covers the parents that are done. -/
theorem inv_of_reachable
    (h : Run.Reachable (step p) (fun s op => s.Unbroken op ∧ s.Covers p op) init s) : s.Inv :=
  h.invariant inv_init fun _ _ _ hinv hg hs => hinv.step hg.1 hg.2 hs

/-! ## What the children are given -/

/-- The parent of a slot is unique. -/
lemma Inv.parent_unique (h : s.Inv) {i i' j : ℕ} (hi : Activates p s i j)
    (hi' : Activates p s i' j) : i = i' := by
  obtain ⟨parent, task, hparent, htask, hid, -⟩ := h.parent hi
  obtain ⟨parent', task', hparent', htask', hid', -⟩ := h.parent hi'
  obtain rfl : task = task' := Option.some.inj (htask.symm.trans htask')
  exact h.tasks.unique hparent hparent' (Option.some.inj (hid.symm.trans hid'))

/-- If a child is given the prompt of its parent, then the parent has no tokens left. -/
lemma Inv.pending_of_copied (h : s.Inv) {i j : ℕ} (hactivates : Activates p s i j)
    (hcopied : Copied s s' i j) (hprompt : (s'.slots j).prompt = s'.memory j) :
    s.pending i = [] := by
  rw [hcopied.1, hcopied.2] at hprompt
  have hexact := (h.slots i).exact (.inr (.inl hactivates.1.1))
  exact append_right_eq_self.mp (hexact.symm.trans hprompt)

/-- A sub-batch is decoded. -/
lemma givesWholePrompt_decode {off nBatch : ℕ} (h : s.Inv)
    (hphase : s.phase = .decoding off nBatch) :
    GivesWholePrompt s (s.decode p off nBatch .ok) ↔ s.Covers p (.decode .ok) := by
  have hinv := h.processed hphase
  have hactivated := activated_activate (p := p) hinv
  constructor
  · intro hgives
    unfold Covers
    rw [hphase]
    intro i hi j hj hdone hparent hwaits t ht hslot
    have hactivates : Activates p (s.processed off nBatch) i j := ⟨⟨hdone, hparent⟩, hj, hwaits⟩
    rcases hactivated.2 j with ⟨i', -, hactivates', hcopied⟩ | ⟨hnot, -⟩
    · obtain rfl := hinv.parent_unique hactivates hactivates'
      have hstate : ((s.decode p off nBatch .ok).slots j).state = .donePrompt := by
        show (((s.processed off nBatch).activate p).slots j).state = _
        rw [hcopied.1]
        rfl
      obtain ⟨_, _, _, -, -, -, -, -, hprompt, -⟩ := hgives j (state_of_waitsFor hwaits) hstate
      have hnil := hinv.pending_of_copied hactivates hcopied hprompt
      exact tokensOf_eq_nil_iff.mp hnil t ht hslot
    · exact hnot i (mem_range.mpr hi) hactivates
  · intro hcovers j hwaits hdone
    rcases hactivated.2 j with ⟨i, hi, hactivates, hcopied⟩ | ⟨-, hsame⟩
    · obtain ⟨parent, task, hparent, htask, hid, htokens, hprompt⟩ := hinv.parent hactivates
      have hnil := hcovers.pending hphase (mem_range.mp hi) hactivates
      have hexact := (hinv.slots i).exact (.inr (.inl hactivates.1.1))
      rw [hnil, append_nil, hprompt] at hexact
      have hsame : Same _ _ i := hactivated.same (by
        rw [hactivates.1.1]
        exact fun h => (by cases h))
      have hmemory : ((s.processed off nBatch).activate p).memory j = parent.tokens :=
        hcopied.2.trans hexact.symm
      refine ⟨i, parent, task, (hactivated.task i).trans hparent, (hactivated.task j).trans htask, hid,
        hcopied.2.trans hsame.2.symm, hsame.2.trans hexact.symm, ?_, hmemory.trans htokens.symm⟩
      refine Eq.trans ?_ hmemory.symm
      show (((s.processed off nBatch).activate p).slots j).prompt = _
      rw [hcopied.1]
      exact hprompt
    · have hstate : ((s.decode p off nBatch .ok).slots j).state = .waitOther := by
        show (((s.processed off nBatch).activate p).slots j).state = _
        rw [hsame.1]
        exact hwaits
      exact absurd (hstate.symm.trans hdone) (by decide)

lemma covers_of_ne (hop : op ≠ .decode .ok) : s.Covers p op := by
  unfold Covers
  split
  · exact absurd rfl hop
  · trivial

/-- A launch activates no child. -/
lemma state_launch {task : CmplTask} {children : List (ℕ × ℤ)} {j : ℕ}
    (hwaits : (s.slots j).state = .waitOther) :
    ((s.launch k task children).slots j).state ≠ .donePrompt := by
  rcases slots_launch s k task children j with hslot | ⟨ti, hslot, -⟩
  · rw [hslot]
    exact not_donePrompt hwaits
  · rw [hslot]
    show (if ti.isChild then SlotState.waitOther else .started) ≠ _
    split_ifs <;> decide

/-- The step neither decodes a sub-batch nor breaks the round off. -/
def isQuiet : LoopOp → Bool
  | .decode _ => false
  | .abort => false
  | _ => true

lemma unbroken_of_isQuiet (h : isQuiet op) : s.Unbroken op := by
  unfold Unbroken
  cases op with
  | decode outcome => cases h
  | abort => cases h
  | exchange | clear | launch | cancel | shift | begin | sampled | start | fill | release | render
  | accept | rollback | next => split <;> trivial

/-- Two slots, and batches of four tokens. -/
def twoSlots : LoopParams := ⟨2, 4, false⟩

/-- A prompt of four tokens for two completions, of which all are put in the batch. -/
def fourTokens : List LoopOp :=
  [.launch 0 ⟨1, none, [10, 11, 12, 13], 1⟩ [(1, 2)], .begin, .start 0 [], .fill 0 0 4, .render]

/-- The state behind some steps. -/
def behind (ops : List LoopOp) : Option ServerLoop := ops.foldlM (step twoSlots) init

/-- **A run** in which no round was broken off too early and in which every sub-batch covered the
parents that were done: the next step gives every child that it activates the whole prompt, if and
only if it covers the parents that are done. -/
theorem givesWholePrompt_iff
    (h : Run.Reachable (step p) (fun s op => s.Unbroken op ∧ s.Covers p op) init s)
    (hs : s.step p op = some s') : GivesWholePrompt s s' ↔ s.Covers p op := by
  have hinv := inv_of_reachable h
  rcases moves_of_step hs with ⟨hop, hmoves⟩ | ⟨hphase, k, task, children, rfl⟩ |
    ⟨off, nBatch, hphase, rfl, rfl⟩
  · exact iff_of_true (fun j hwaits hdone => absurd hdone (hmoves.waits j hwaits))
      (covers_of_ne hop)
  · refine iff_of_true (fun j hwaits hdone => ?_) (covers_of_ne fun h => (by cases h))
    unfold ServerLoop.step at hs
    rw [hphase] at hs
    dsimp only at hs
    split_ifs at hs
    cases hs
    exact absurd hdone (state_launch hwaits)
  · exact givesWholePrompt_decode hinv hphase

theorem givesWholePrompt_iff_fourTokens : ∃ s s', behind fourTokens = some s ∧
    s.step twoSlots (.decode .ok) = some s' ∧
      (GivesWholePrompt s s' ↔ s.Covers twoSlots (.decode .ok)) := by
  obtain ⟨s, hs⟩ := Option.isSome_iff_exists.mp (show (behind fourTokens).isSome from rfl)
  have hstep : ((behind fourTokens).bind fun s => s.step twoSlots (.decode .ok)).isSome := rfl
  rw [hs] at hstep
  obtain ⟨s', hs'⟩ := Option.isSome_iff_exists.mp hstep
  refine ⟨s, s', hs, hs', givesWholePrompt_iff (.foldlM .init (fun s op hop => ?_) hs) hs'⟩
  have hquiet := List.all_eq_true.mp (show fourTokens.all isQuiet from rfl) op hop
  exact ⟨unbroken_of_isQuiet hquiet, covers_of_ne fun heq => (by rw [heq] at hquiet; cases hquiet)⟩

/-- There is no room for the prompt, and room for its half: the child is given that half. -/
theorem not_givesWholePrompt_retry : ∃ s s', behind (fourTokens ++ [.decode .noSlot]) = some s ∧
    s.step twoSlots (.decode .ok) = some s' ∧ ¬ GivesWholePrompt s s' := by
  have hrun : ((behind (fourTokens ++ [.decode .noSlot])).bind fun s =>
      (s.step twoSlots (.decode .ok)).map fun s' => ((s.slots 1).state, (s'.slots 1).state,
        (s'.slots 1).prompt, s'.memory 1)) =
      some (.waitOther, .donePrompt, [10, 11, 12, 13], [10, 11]) := rfl
  obtain ⟨s, hs, hrun⟩ := Option.bind_eq_some_iff.mp hrun
  obtain ⟨s', hs', hrun⟩ := Option.map_eq_some_iff.mp hrun
  refine ⟨s, s', hs, hs', fun hgives => ?_⟩
  obtain ⟨hwaits, hrun⟩ := Prod.mk.inj hrun
  obtain ⟨hdone, hrun⟩ := Prod.mk.inj hrun
  obtain ⟨hprompt, hmemory⟩ := Prod.mk.inj hrun
  obtain ⟨_, _, _, -, -, -, -, -, heq, -⟩ := hgives 1 hwaits hdone
  rw [hprompt, hmemory] at heq
  exact absurd heq (by decide)

end ServerLoop

end Llama
