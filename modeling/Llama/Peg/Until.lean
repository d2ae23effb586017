import Llama.Peg
import Llama.Trie.Words

/-!
# The parser up to a delimiter

In a valid text `Peg.untilParser` stops at the first place where the code points of a delimiter
begin, or where all that is left of the text begins a delimiter (`untilFrom_eq`).  The second
kind of place is one to wait at when more text can follow; a strict parse stops there too, so a
text that ends like the beginning of a delimiter loses its end (`untilParser_stopsAt_iff`).
-/

namespace Llama.Peg

open Unicode CommonTrie List

variable {delimiters : List (List UInt8)}

/-- A delimiter is at a place of the text. -/
def Occurs (delimiters : List (List UInt8)) (input : List UInt8) (o : ℕ) : Prop :=
  ∃ d ∈ delimiters, d <+: input.drop o

/-- The first occurrence at or after the start, the end of the text without one. -/
structure StopsAt (delimiters : List (List UInt8)) (input : List UInt8) (start e : ℕ) : Prop where
  le : start ≤ e
  first : ∀ o, start ≤ o → o < e → ¬ Occurs delimiters input o
  stops : Occurs delimiters input e ∨ e = input.length

/-- One of the delimiters is at the beginning of the code points, or goes on after them. -/
def Seen (delimiters : List (List UInt8)) (post : List ℕ) : Prop :=
  post ≠ [] ∧ ∃ d ∈ delimiters, symbolsOf d ≠ [] ∧ (symbolsOf d <+: post ∨ post <+: symbolsOf d)

variable {t : CommonTrie} {words ps : List (List ℕ)} {cs post : List ℕ} {o : ℕ}

/-- A pattern that goes on with another symbol and agrees with the text. -/
lemma agrees_snoc_iff {w p rest : List ℕ} {c : ℕ} (hne : p ≠ w) :
    w <+: p ∧ (p <+: w ++ c :: rest ∨ w ++ c :: rest <+: p) ↔
      w ++ [c] <+: p ∧ (p <+: (w ++ [c]) ++ rest ∨ (w ++ [c]) ++ rest <+: p) := by
  have hlist : (w ++ [c]) ++ rest = w ++ c :: rest := append_assoc w [c] rest
  rw [hlist]
  refine ⟨fun h => ⟨?_, h.2⟩, fun h => ⟨(prefix_append w [c]).trans h.1, h.2⟩⟩
  obtain ⟨⟨y, rfl⟩, h⟩ := h
  cases y with
  | nil => exact absurd (append_nil w) hne
  | cons x y =>
    rw [prefix_append_right_inj, prefix_append_right_inj, cons_prefix_cons, cons_prefix_cons] at h
    have hx : x = c := h.elim (fun h => h.1) fun h => h.1.symm
    exact ⟨y, by rw [hx, append_assoc]; rfl⟩

/-- The step of the walk for a code point. -/
lemma checkFrom_succ {sv : List UInt8} {n u pos c k : ℕ} (hlt : pos < sv.length)
    (hparse : parseUtf8Codepoint sv pos = .success c k) :
    t.checkFrom sv (n + 1) u pos = (t.child u c).elim .noMatch fun next =>
      if (t.node next).pattern ≥ 0 then .completeMatch else t.checkFrom sv n next (pos + k) := by
  rw [checkFrom, if_pos hlt, hparse]
  cases hc : t.child u c <;> simp [hc]

/-- **The walk through the trie finds the patterns that agree with the text.** -/
theorem checkFrom_ne_iff (h : Holds t words ps) (hcs : ∀ c ∈ cs, c ≤ 0x10FFFF) (n : ℕ) :
    ∀ {u w post o}, words[u]? = some w → (w = [] ∨ w ∉ ps) → Boundary cs o post →
      (cptsToUtf8 cs).length ≤ o + n →
      (t.checkFrom (cptsToUtf8 cs) n u o ≠ .noMatch ↔ w ++ post ≠ [] ∧
        ∃ p ∈ ps, p ≠ [] ∧ w <+: p ∧ (p <+: w ++ post ∨ w ++ post <+: p)) := by
  -- at the end of the text, what was read is a word
  have hend : ∀ {u w}, words[u]? = some w → (atEnd u ≠ .noMatch ↔ w ++ [] ≠ [] ∧
      ∃ p ∈ ps, p ≠ [] ∧ w <+: p ∧ (p <+: w ++ [] ∨ w ++ [] <+: p)) := by
    intro u w hu
    rw [append_nil, atEnd]
    by_cases hw : w = []
    · subst hw
      rw [if_neg (not_not.mpr (h.eq_zero hu))]
      simp
    · have hzero : u ≠ 0 := fun h0 => hw
        (Option.some_inj.mp (h.root.symm.trans (h0 ▸ hu))).symm
      rw [if_pos hzero]
      obtain ⟨p, hp, hwp⟩ := ((h.mem_iff w).mp (mem_of_getElem? hu)).resolve_left hw
      have hne : p ≠ [] := fun hnil => hw (prefix_nil.mp (hnil ▸ hwp))
      exact iff_of_true (by decide) ⟨hw, p, hp, hne, hwp, .inr hwp⟩
  induction n with
  | zero =>
    intro u w post o hu _ ho hn
    obtain rfl := ho.eq_nil hcs hn
    exact hend hu
  | succ n ih =>
    intro u w post o hu hw ho hn
    cases post with
    | nil =>
      have hlen : (cptsToUtf8 cs).length = o := ho.length
      rw [checkFrom, if_neg (Nat.not_lt.mpr hlen.le)]
      exact hend hu
    | cons c post =>
      have hc := hcs c (ho.mem mem_cons_self)
      obtain ⟨hlt, hparse⟩ := ho.parse hc
      have hpos := length_pos_iff.mpr (cptToUtf8_ne_nil hc)
      have hne : ∀ p ∈ ps, p ≠ [] → p ≠ w := by
        rintro p hp hpn rfl
        exact hw.elim hpn fun hw => hw hp
      have hnonnil : w ++ c :: post ≠ [] := by simp
      rw [checkFrom_succ hlt hparse]
      cases hchild : t.child u c with
      | none =>
        refine iff_of_false (fun h => h rfl) ?_
        rintro ⟨-, p, hp, hpn, hwp⟩
        obtain ⟨hwc, -⟩ := (agrees_snoc_iff (hne p hp hpn)).mp hwp
        exact h.not_mem hu hchild ((h.mem_iff _).mpr (.inr ⟨p, hp, hwc⟩))
      | some v =>
        obtain ⟨w', hw', hv⟩ := (h.child_iff u c v).mp hchild
        rw [← Option.some_inj.mp (hu.symm.trans hw')] at hv
        have hiff : (t.node v).pattern ≥ 0 ↔ w ++ [c] ∈ ps := by
          rw [h.pattern v _ hv]
          exact patternIndex_nonneg_iff
        rw [Option.elim_some]
        by_cases hmem : w ++ [c] ∈ ps
        · rw [if_pos (hiff.mpr hmem)]
          refine iff_of_true (by decide) ⟨hnonnil, _, hmem, by simp, prefix_append _ _, .inl ?_⟩
          rw [prefix_append_right_inj]
          exact prefix_append [c] post
        · rw [if_neg (mt hiff.mp hmem), ih hv (.inr hmem) ho.next (by omega)]
          have hlist : (w ++ [c]) ++ post = w ++ c :: post := append_assoc w [c] post
          refine and_congr (by rw [hlist]) (exists_congr fun p => ?_)
          constructor
          · exact fun ⟨hp, hpn, hag⟩ => ⟨hp, hpn, (agrees_snoc_iff (hne p hp hpn)).mpr hag⟩
          · exact fun ⟨hp, hpn, hag⟩ => ⟨hp, hpn, (agrees_snoc_iff (hne p hp hpn)).mp hag⟩

/-- The trie reports the places that are seen. -/
lemma checkAt_ne_iff (delimiters : List (List UInt8)) (hcs : ∀ c ∈ cs, c ≤ 0x10FFFF)
    (ho : Boundary cs o post) :
    (ofWords delimiters).checkAt (cptsToUtf8 cs) o ≠ .noMatch ↔ Seen delimiters post := by
  obtain ⟨words, h⟩ := holds_ofSymbols (delimiters.map symbolsOf)
  rw [checkAt, ofWords, checkFrom_ne_iff h hcs _ h.root (.inl rfl) ho (by omega)]
  refine and_congr Iff.rfl ?_
  constructor
  · rintro ⟨p, hp, hpn, -, hag⟩
    obtain ⟨d, hd, rfl⟩ := mem_map.mp (mem_distinct.mp hp)
    exact ⟨d, hd, hpn, hag⟩
  · rintro ⟨d, hd, hpn, hag⟩
    exact ⟨_, mem_distinct.mpr (mem_map_of_mem hd), hpn, nil_prefix, hag⟩

/-! ## The scan -/

/-- Where the parser stops: the first place that is seen, the end of the text without one. -/
structure ScanStop (delimiters : List (List UInt8)) (cs : List ℕ) (start e : ℕ) : Prop where
  le : start ≤ e
  first : ∀ o post, start ≤ o → o < e → Boundary cs o post → ¬ Seen delimiters post
  stops : (∃ post, Boundary cs e post ∧ Seen delimiters post) ∨ e = (cptsToUtf8 cs).length

/-- **The scan stops at the first place that is seen.** -/
theorem untilFrom_eq (delimiters : List (List UInt8)) (hcs : ∀ c ∈ cs, c ≤ 0x10FFFF) (n : ℕ) :
    ∀ startPos {post o}, Boundary cs o post → (cptsToUtf8 cs).length ≤ o + n →
      ∃ e, untilFrom (cptsToUtf8 cs) false (ofWords delimiters) startPos n o o =
        ⟨.success, startPos, e⟩ ∧ ScanStop delimiters cs o e := by
  have hend : ∀ {o startPos}, Boundary cs o [] →
      ∃ e, untilEnd (cptsToUtf8 cs) false startPos o = ⟨.success, startPos, e⟩ ∧
        ScanStop delimiters cs o e := by
    intro o startPos ho
    exact ⟨o, if_neg (by simp), Nat.le_refl _, fun x _ hx hlt => absurd hlt (Nat.not_lt.mpr hx),
      .inr ho.length.symm⟩
  induction n with
  | zero =>
    intro startPos post o ho hn
    obtain rfl := ho.eq_nil hcs hn
    exact hend ho
  | succ n ih =>
    intro startPos post o ho hn
    cases post with
    | nil =>
      have hlen : (cptsToUtf8 cs).length = o := ho.length
      rw [untilFrom, if_neg (Nat.not_lt.mpr hlen.le)]
      exact hend ho
    | cons c post =>
      have hc := hcs c (ho.mem mem_cons_self)
      obtain ⟨hlt, hparse⟩ := ho.parse hc
      have hpos := length_pos_iff.mpr (cptToUtf8_ne_nil hc)
      have hseen := checkAt_ne_iff delimiters hcs ho
      -- a match of either kind ends the scan
      have hstop : Seen delimiters (c :: post) → ∃ e,
          (⟨.success, startPos, o⟩ : ParseResult) = ⟨.success, startPos, e⟩ ∧
            ScanStop delimiters cs o e := fun hs =>
        ⟨o, rfl, Nat.le_refl _, fun x _ hx hlt => absurd hlt (Nat.not_lt.mpr hx), .inl ⟨_, ho, hs⟩⟩
      rw [untilFrom, if_pos hlt, hparse]
      cases hmatch : (ofWords delimiters).checkAt (cptsToUtf8 cs) o with
      | completeMatch =>
        simpa only [hmatch] using hstop (hseen.mp (by simp [hmatch]))
      | partialMatch =>
        simpa only [hmatch] using hstop (hseen.mp (by simp [hmatch]))
      | noMatch =>
        obtain ⟨e, hrun, he⟩ := ih startPos ho.next (by omega)
        refine ⟨e, by simpa only [hmatch] using hrun, by have := he.le; omega,
          fun x post' hx hxe hb => ?_, he.stops⟩
        rcases ho.eq_or_le hcs hb hx with ⟨rfl, rfl⟩ | hge
        · exact fun hs => hseen.mpr hs hmatch
        · exact he.first x post' hge hxe hb

/-- The parser fails inside of a code point and goes nowhere behind the end of the text. -/
lemma untilParser_eq_of_not_boundary (hcs : ∀ c ∈ cs, c ≤ 0x10FFFF) {start : ℕ}
    (hstart : ¬ ∃ post, Boundary cs start post) :
    untilParser (cptsToUtf8 cs) false delimiters start = ⟨.fail, start, start⟩ ∨
      (cptsToUtf8 cs).length < start ∧
        untilParser (cptsToUtf8 cs) false delimiters start = ⟨.success, start, start⟩ := by
  rcases Nat.lt_or_ge start (cptsToUtf8 cs).length with hlt | hge
  · left
    obtain ⟨b, rest, hdrop, hb⟩ := (boundary_or_isContinuation cs hcs hlt).resolve_left hstart
    obtain ⟨n, hn⟩ : ∃ n, (cptsToUtf8 cs).length - start = n + 1 :=
      ⟨(cptsToUtf8 cs).length - start - 1, by omega⟩
    rw [untilParser, hn, untilFrom, if_pos hlt, parseUtf8Codepoint_of_isContinuation hdrop hb]
  · right
    have hne : (cptsToUtf8 cs).length ≠ start := fun heq =>
      hstart ⟨[], cs, (append_nil cs).symm, heq.symm⟩
    have hzero : (cptsToUtf8 cs).length - start = 0 := Nat.sub_eq_zero_of_le hge
    rw [untilParser, hzero]
    exact ⟨Nat.lt_of_le_of_ne hge hne, if_neg (by simp)⟩

/-- Up to the first occurrence the places that are seen are those where a delimiter is. -/
def Faithful (delimiters : List (List UInt8)) (cs : List ℕ) (start : ℕ) : Prop :=
  ∀ o, start ≤ o → o < (cptsToUtf8 cs).length →
    (∀ x, start ≤ x → x < o → ¬ Occurs delimiters (cptsToUtf8 cs) x) →
    (Occurs delimiters (cptsToUtf8 cs) o ↔ ∃ post, Boundary cs o post ∧ Seen delimiters post)

/-- Behind the end of the text there is no delimiter. -/
lemma not_occurs_of_le {input : List UInt8} (hne : ∀ d ∈ delimiters, d ≠ [])
    (ho : input.length ≤ o) : ¬ Occurs delimiters input o := by
  rintro ⟨d, hd, hpre⟩
  rw [drop_eq_nil_of_le ho, prefix_nil] at hpre
  exact hne d hd hpre

/-- The scan ends at the first occurrence when it sees the occurrences. -/
lemma ScanStop.stopsAt_iff {start e : ℕ} (h : ScanStop delimiters cs start e)
    (hne : ∀ d ∈ delimiters, d ≠ []) :
    StopsAt delimiters (cptsToUtf8 cs) start e ↔ Faithful delimiters cs start := by
  constructor
  · intro hs o ho hlt hfirst
    rcases Nat.lt_trichotomy o e with hoe | rfl | hoe
    · refine iff_of_false (hs.first o ho hoe) ?_
      rintro ⟨post, hb, hseen⟩
      exact h.first o post ho hoe hb hseen
    · exact iff_of_true (hs.stops.resolve_right hlt.ne) (h.stops.resolve_right hlt.ne)
    · rcases hs.stops with hocc | rfl
      · exact absurd hocc (hfirst e h.le hoe)
      · omega
  · intro hf
    have hlen : e ≤ (cptsToUtf8 cs).length := by
      rcases h.stops with ⟨post, hb, -⟩ | rfl
      · have := hb.length
        omega
      · exact Nat.le_refl _
    have hfirst : ∀ k, ∀ o < k, start ≤ o → o < e → ¬ Occurs delimiters (cptsToUtf8 cs) o := by
      intro k
      induction k with
      | zero => exact fun o ho => absurd ho (Nat.not_lt_zero o)
      | succ k ih =>
        intro o _ hso hoe hocc
        obtain ⟨post, hb, hseen⟩ := (hf o hso (by omega) fun x hx hxo =>
          ih x (by omega) hx (by omega)).mp hocc
        exact h.first o post hso hoe hb hseen
    have hbefore : ∀ o, start ≤ o → o < e → ¬ Occurs delimiters (cptsToUtf8 cs) o :=
      fun o => hfirst (o + 1) o (Nat.lt_succ_self o)
    refine ⟨h.le, hbefore, ?_⟩
    rcases Nat.lt_or_ge e (cptsToUtf8 cs).length with hlt | hge
    · exact .inl ((hf e h.le hlt hbefore).mpr (h.stops.resolve_right hlt.ne))
    · exact .inr (Nat.le_antisymm hlen hge)

/-- **A strict parse stops at the first occurrence of a delimiter exactly if up to there it sees
the occurrences and nothing else.** -/
theorem untilParser_stopsAt_iff {input : List UInt8} (hne : ∀ d ∈ delimiters, d ≠ [])
    (hinput : Utf8Encodes cs input) (start : ℕ) :
    (∃ e, untilParser input false delimiters start = ⟨.success, start, e⟩ ∧
        StopsAt delimiters input start e) ↔
      (∃ post, Boundary cs start post) ∧ Faithful delimiters cs start := by
  obtain ⟨hscalar, rfl⟩ := hinput
  have hcs : ∀ c ∈ cs, c ≤ 0x10FFFF := fun c hc => (hscalar c hc).le
  by_cases hstart : ∃ post, Boundary cs start post
  · obtain ⟨post, hb⟩ := hstart
    obtain ⟨e, hrun, he⟩ := untilFrom_eq delimiters hcs
      ((cptsToUtf8 cs).length - start) start hb (by omega)
    have hiff := he.stopsAt_iff hne
    constructor
    · rintro ⟨e', hrun', hs⟩
      rw [untilParser, hrun] at hrun'
      cases hrun'
      exact ⟨⟨post, hb⟩, hiff.mp hs⟩
    · rintro ⟨-, hf⟩
      exact ⟨e, hrun, hiff.mpr hf⟩
  · refine iff_of_false ?_ fun h => hstart h.1
    rintro ⟨e, hrun, hs⟩
    rcases untilParser_eq_of_not_boundary hcs hstart with heq | ⟨hlt, heq⟩
    · rw [heq] at hrun
      cases hrun
    · rw [heq] at hrun
      cases hrun
      rcases hs.stops with hocc | heq
      · exact not_occurs_of_le hne hlt.le hocc
      · omega

/-- A text with a delimiter. -/
theorem untilParser_stopsAt_tag :
    (∃ e, untilParser [97, 60, 47, 98] false [[60, 47]] 0 = ⟨.success, 0, e⟩ ∧
        StopsAt [[60, 47]] [97, 60, 47, 98] 0 e) ↔
      (∃ post, Boundary [97, 60, 47, 98] 0 post) ∧ Faithful [[60, 47]] [97, 60, 47, 98] 0 :=
  untilParser_stopsAt_iff (by decide) ⟨by decide, by decide⟩ 0

/-- A strict parse of `a<` up to `</` stops before its end. -/
theorem untilParser_partial :
    Utf8Encodes [97, 60] [97, 60] ∧ (∀ d ∈ [([60, 47] : List UInt8)], d ≠ []) ∧
      ¬ ∃ e, untilParser [97, 60] false [[60, 47]] 0 = ⟨.success, 0, e⟩ ∧
        StopsAt [[60, 47]] [97, 60] 0 e := by
  refine ⟨⟨by decide, by decide⟩, by decide, ?_⟩
  rintro ⟨e, hrun, hs⟩
  cases hrun
  rcases hs.stops with ⟨d, hd, hpre⟩ | hlen
  · rw [List.mem_singleton.mp hd] at hpre
    exact absurd hpre (by decide)
  · exact absurd hlen (by decide)

end Llama.Peg
