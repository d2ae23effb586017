import Llama.Grammar.Expansion

/-!
# The rules of a grammar mean what its text says

The parser gives the names their ids in the order in which they come, and makes a rule for every
group and for the optional copies of a repetition.  The names that it makes itself have an
underscore, which no name of the text has, so these rules are never replaced (`Run`).

When a text is parsed, the rules are those of a grammar, and a name has the language that the text
of its last rule has (`parse_meaning`).
-/

namespace Llama

open List Control
variable {s : GrammarParser}

namespace Gbnf

open Cfg GrammarParser

/-! ## Names -/

/-- A name of the text. -/
def IsWord (name : List Char) : Prop := ∀ c ∈ name, isWordChar c = true

/-- A name that the parser makes. -/
def madeName (base : List Char) (id : ℕ) : List Char := base ++ '_' :: Nat.toDigits 10 id

lemma not_isWord_madeName (base : List Char) (id : ℕ) : ¬ IsWord (madeName base id) := by
  intro h
  exact absurd (h '_' (by simp [madeName])) (by decide)

variable {id : ℕ} {name src : List Char}

lemma madeName_inj {base base' : List Char} {id' : ℕ} (hbase : IsWord base)
    (hbase' : IsWord base') (h : madeName base id = madeName base' id') : id = id' := by
  have hdrop : ∀ (id : ℕ) {base : List Char}, IsWord base →
      (madeName base id).dropWhile isWordChar = '_' :: Nat.toDigits 10 id := by
    intro id base hword
    rw [madeName, dropWhile_append_of_pos hword]
    rfl
  have hdigits := hdrop id hbase
  rw [h, hdrop id' hbase'] at hdigits
  have hsame := congrArg (fun ds => Nat.ofDigitChars 10 ds 0) (List.cons.inj hdigits).2
  simpa only [Nat.ofDigitChars_ten_toDigits] using hsame.symm

/-- The id of a name is its place, and a name is one of the text or was made for its place. -/
structure WellFormed (s : GrammarParser) : Prop where
  ids : s.symbolIds.map Prod.snd = List.range s.symbolIds.length
  names : ∀ kv ∈ s.symbolIds, IsWord kv.1 ∨ ∃ base, IsWord base ∧ kv.1 = madeName base kv.2

lemma WellFormed.getElem? (h : WellFormed s) {kv : List Char × ℕ} (hkv : kv ∈ s.symbolIds) :
    s.symbolIds[kv.2]? = some kv := by
  obtain ⟨i, hi⟩ := mem_iff_getElem?.mp hkv
  have hsnd : (s.symbolIds.map Prod.snd)[i]? = some kv.2 := by
    rw [getElem?_map, hi]
    rfl
  rw [h.ids] at hsnd
  have hlt := (List.getElem?_eq_some_iff.mp hsnd).1
  rw [getElem?_range (by simpa using hlt), Option.some_inj] at hsnd
  rwa [← hsnd]

lemma WellFormed.lt {s : GrammarParser} (h : WellFormed s) {kv : List Char × ℕ}
    (hkv : kv ∈ s.symbolIds) : kv.2 < s.symbolIds.length :=
  (List.getElem?_eq_some_iff.mp (h.getElem? hkv)).1

lemma mem_of_lookup {l : List (List Char × ℕ)} (h : l.lookup name = some id) : (name, id) ∈ l := by
  obtain ⟨l1, l2, rfl, -⟩ := lookup_eq_some_iff.mp h
  simp

/-- A name is added at the end. -/
lemma WellFormed.concat {t : GrammarParser} (h : WellFormed s)
    (ht : t.symbolIds = s.symbolIds ++ [(name, s.symbolIds.length)])
    (hname : IsWord name ∨ ∃ base, IsWord base ∧ name = madeName base s.symbolIds.length) :
    WellFormed t where
  ids := by rw [ht, map_append, h.ids, length_append, length_singleton, range_succ]; rfl
  names := by
    intro kv hkv
    rw [ht] at hkv
    rcases mem_append.mp hkv with hkv | hkv
    · exact h.names kv hkv
    · rw [mem_singleton.mp hkv]
      exact hname

/-- A name gets an id. -/
lemma getSymbolId_spec (h : WellFormed s) (hname : IsWord name)
    (hlt : s.symbolIds.length < 2 ^ 32) :
    WellFormed (getSymbolId name s).2 ∧ s.symbolIds <+: (getSymbolId name s).2.symbolIds ∧
      (getSymbolId name s).2.rules = s.rules ∧
      (getSymbolId name s).2.symbolIds.lookup name = some (getSymbolId name s).1 := by
  rw [getSymbolId]
  split
  · next id heq => exact ⟨h, prefix_refl _, rfl, heq⟩
  · next heq =>
    have hmod : s.symbolIds.length % 2 ^ 32 = s.symbolIds.length := Nat.mod_eq_of_lt hlt
    rw [hmod]
    refine ⟨h.concat rfl (.inl hname), prefix_append _ _, rfl, ?_⟩
    rw [lookup_append, heq]
    simp

lemma length_le_getSymbolId (name : List Char) (s : GrammarParser) :
    s.symbolIds.length ≤ (getSymbolId name s).2.symbolIds.length := by
  rw [getSymbolId]
  split
  · exact le_refl _
  · rw [length_append]
    exact Nat.le_add_right _ _

lemma setSymbol_length (name : List Char) (id : ℕ) (l : List (List Char × ℕ)) :
    l.length ≤ (setSymbol name id l).length := by
  induction l with
  | nil => exact Nat.zero_le _
  | cons kv l ih =>
    rw [setSymbol]
    split
    · exact le_refl _
    · exact Nat.succ_le_succ ih

lemma setSymbol_eq_concat {l : List (List Char × ℕ)} (h : ∀ kv ∈ l, kv.1 ≠ name) :
    setSymbol name id l = l ++ [(name, id)] := by
  induction l with
  | nil => rfl
  | cons kv l ih =>
    obtain ⟨hkv, hl⟩ := forall_mem_cons.mp h
    rw [setSymbol, if_neg hkv, ih hl]
    rfl

lemma length_le_generateSymbolId (base : List Char) (s : GrammarParser) :
    s.symbolIds.length ≤ (generateSymbolId base s).2.symbolIds.length :=
  setSymbol_length _ _ _

/-- A new name gets the next id. -/
lemma generateSymbolId_spec {base : List Char} (h : WellFormed s) (hbase : IsWord base)
    (hlt : s.symbolIds.length < 2 ^ 32) :
    WellFormed (generateSymbolId base s).2 ∧ (generateSymbolId base s).1 = s.symbolIds.length ∧
      (generateSymbolId base s).2.rules = s.rules ∧
      (generateSymbolId base s).2.symbolIds =
        s.symbolIds ++ [(madeName base s.symbolIds.length, s.symbolIds.length)] := by
  have hmod : s.symbolIds.length % 2 ^ 32 = s.symbolIds.length := Nat.mod_eq_of_lt hlt
  have hnew : ∀ kv ∈ s.symbolIds, kv.1 ≠ madeName base s.symbolIds.length := by
    intro kv hkv heq
    rcases h.names kv hkv with hword | ⟨base', hbase', hmade⟩
    · exact not_isWord_madeName _ _ (heq ▸ hword)
    · have hid := madeName_inj hbase' hbase (hmade.symm.trans heq)
      exact absurd (h.lt hkv) (hid ▸ lt_irrefl _)
  have hsymbols : (generateSymbolId base s).2.symbolIds =
      s.symbolIds ++ [(madeName base s.symbolIds.length, s.symbolIds.length)] := by
    rw [generateSymbolId, hmod]
    exact setSymbol_eq_concat hnew
  exact ⟨h.concat hsymbols (.inr ⟨base, hbase, rfl⟩), hmod, rfl, hsymbols⟩

/-! ## What is added -/

/-- The rules that a part of the parser adds have ids of their own, whose names no text has. -/
structure Run (s s' : GrammarParser) (news : List (ℕ × Rule)) : Prop where
  wellFormed : WellFormed s'
  symbols : s.symbolIds <+: s'.symbolIds
  rules : s'.rules = (addRules news s).rules
  fresh : ∀ e ∈ news, s.symbolIds.length ≤ e.1 ∧ e.1 < s'.symbolIds.length
  made : ∀ e ∈ news, ∀ kv, s'.symbolIds[e.1]? = some kv → ¬ IsWord kv.1
  nodup : (news.map Prod.fst).Nodup

variable {s s1 s2 : GrammarParser} {news news' : List (ℕ × Rule)}

lemma Run.refl (h : WellFormed s) : Run s s [] where
  wellFormed := h
  symbols := prefix_refl _
  rules := rfl
  fresh _ he := absurd he not_mem_nil
  made _ he := absurd he not_mem_nil
  nodup := nodup_nil

lemma Run.length_le (h : Run s s1 news) : s.symbolIds.length ≤ s1.symbolIds.length :=
  h.symbols.length_le

lemma Run.trans (h : Run s s1 news) (h' : Run s1 s2 news') : Run s s2 (news ++ news') where
  wellFormed := h'.wellFormed
  symbols := h.symbols.trans h'.symbols
  rules := by
    rw [h'.rules, addRules_append]
    exact addRules_congr _ h.rules
  fresh e he := by
    have hle := h.length_le
    have hle' := h'.length_le
    rcases mem_append.mp he with he | he
    · have := h.fresh e he
      omega
    · have := h'.fresh e he
      omega
  made e he kv hkv := by
    rcases mem_append.mp he with he | he
    · obtain ⟨rest, hrest⟩ := h'.symbols
      rw [← hrest, getElem?_append_left (h.fresh e he).2] at hkv
      exact h.made e he kv hkv
    · exact h'.made e he kv hkv
  nodup := by
    rw [map_append, nodup_append]
    refine ⟨h.nodup, h'.nodup, fun a ha b hb hab => ?_⟩
    obtain ⟨e, he, rfl⟩ := mem_map.mp ha
    obtain ⟨e', he', rfl⟩ := mem_map.mp hb
    have h1 := h.fresh e he
    have h2 := h'.fresh e' he'
    omega

/-- A name that is looked up adds no rule. -/
lemma run_getSymbolId (hwf : WellFormed s1) (hpre : s.symbolIds <+: s1.symbolIds)
    (hrules : s1.rules = s.rules) : Run s s1 [] where
  wellFormed := hwf
  symbols := hpre
  rules := hrules
  fresh _ he := absurd he not_mem_nil
  made _ he := absurd he not_mem_nil
  nodup := nodup_nil

/-- The other parts of the state do not matter. -/
lemma Run.congr (h : Run s s1 news) (hrules : s2.rules = s1.rules)
    (hsymbols : s2.symbolIds = s1.symbolIds) : Run s s2 news where
  wellFormed := ⟨by rw [hsymbols]; exact h.wellFormed.ids, by
    rw [hsymbols]; exact h.wellFormed.names⟩
  symbols := hsymbols ▸ h.symbols
  rules := hrules.trans h.rules
  fresh := hsymbols ▸ h.fresh
  made := hsymbols ▸ h.made
  nodup := h.nodup

/-- A rule is added under a new id. -/
lemma run_generate {base : List Char} (h : WellFormed s) (hbase : IsWord base)
    (hlt : s.symbolIds.length < 2 ^ 32) (h' : Run (generateSymbolId base s).2 s1 news)
    (rule : Rule) (hrules : s2.rules = (addRule (generateSymbolId base s).1 rule.elements s1).rules)
    (hsymbols : s2.symbolIds = s1.symbolIds) :
    Run s s2 (news ++ [((generateSymbolId base s).1, rule)]) := by
  obtain ⟨hwf, hid, hgen, hsym⟩ := generateSymbolId_spec h hbase hlt
  have hlen : (generateSymbolId base s).2.symbolIds.length = s.symbolIds.length + 1 := by
    rw [hsym, length_append, length_singleton]
  have hle := h'.length_le
  have hlook : s1.symbolIds[s.symbolIds.length]? =
      some (madeName base s.symbolIds.length, s.symbolIds.length) := by
    obtain ⟨rest, hrest⟩ := h'.symbols
    rw [← hrest, hsym, append_assoc, getElem?_append_right (le_refl _), Nat.sub_self]
    rfl
  constructor
  · exact ⟨by rw [hsymbols]; exact h'.wellFormed.ids, by
      rw [hsymbols]; exact h'.wellFormed.names⟩
  · rw [hsymbols]
    exact (hsym ▸ prefix_append _ _ : s.symbolIds <+: _).trans h'.symbols
  · rw [hrules, addRules_append]
    exact addRule_rules _ _ (h'.rules.trans (addRules_congr _ hgen))
  · intro e he
    rw [hsymbols]
    rcases mem_append.mp he with he | he
    · have := h'.fresh e he
      omega
    · rw [mem_singleton.mp he]
      omega
  · intro e he kv hkv
    rw [hsymbols] at hkv
    rcases mem_append.mp he with he | he
    · exact h'.made e he kv hkv
    · rw [mem_singleton.mp he] at hkv
      rw [hid, hlook] at hkv
      cases hkv
      exact not_isWord_madeName _ _
  · rw [map_append, nodup_append]
    refine ⟨h'.nodup, nodup_singleton _, fun a ha b hb hab => ?_⟩
    obtain ⟨e, he, rfl⟩ := mem_map.mp ha
    rw [map_singleton, mem_singleton] at hb
    have := (h'.fresh e he).1
    omega

lemma length_le_of_makes {ruleName : List Char} (h : Makes ruleName s news s1) :
    s.symbolIds.length ≤ s1.symbolIds.length := by
  induction h with
  | nil => exact le_refl _
  | cons _ ih => exact (length_le_generateSymbolId _ _).trans ih

/-- The rules of a repetition have ids of their own. -/
lemma run_of_makes {ruleName : List Char} (hname : IsWord ruleName)
    (h : Makes ruleName s news s1) : WellFormed s → s1.symbolIds.length < 2 ^ 32 →
      Run s s1 news := by
  induction h with
  | nil => exact fun hwf _ => .refl hwf
  | @cons s s1 rule news hmakes ih =>
    intro hwf hlt
    have hle := length_le_generateSymbolId ruleName s
    have hle' := length_le_of_makes hmakes
    have hlt' : s.symbolIds.length < 2 ^ 32 := (hle.trans hle').trans_lt hlt
    have hgen := (generateSymbolId_spec hwf hname hlt').1
    have hfirst := run_generate hwf hname hlt' (.refl hgen) rule rfl rfl
    exact hfirst.trans (ih hfirst.wellFormed hlt)

/-! ## The languages -/

variable {vocab : Option (List Char → Option ℕ)} {nested : List Char → ℕ → Parse (List Char)}
  {ruleName : List Char} {G : List Rule} {ρ : List Char → TextSet}

/-- The names of the text have the languages of their rules. -/
def Names (ρ : List Char → TextSet) (G : List Rule) (s : GrammarParser) : Prop :=
  ∀ name id, IsWord name → s.symbolIds.lookup name = some id → ρ name = denotes G [.ref id]

lemma Names.mono (h : Names ρ G s1) (hle : s.symbolIds <+: s1.symbolIds) : Names ρ G s :=
  fun name id hname hid => h name id hname (hle.lookup_eq_some hid)

lemma Has.left (h : Has G (news ++ news')) : Has G news :=
  fun e he => h e (mem_append_left _ he)

lemma Has.right (h : Has G (news ++ news')) : Has G news' :=
  fun e he => h e (mem_append_right _ he)

/-- The language of a rule. -/
def ruleSet (G : List Rule) (rule : Rule) : TextSet :=
  {w | ∃ a ∈ rule.alternates, w ∈ denotes G a}

lemma denotes_ref {rule : Rule} (h : G[id]? = some rule) :
    denotes G [.ref id] = ruleSet G rule := by
  ext w
  exact mem_denotes_ref h

/-- Alternates were read into a rule. -/
def ReadsRule (vocab : Option (List Char → Option ℕ)) (b : Bool) (src : List Char) (id : ℕ)
    (pos1 : List Char) (s s1 : GrammarParser) : Prop :=
  s.symbolIds.length ≤ s1.symbolIds.length ∧ (WellFormed s → s1.symbolIds.length < 2 ^ 32 →
      ∃ (news : List (ℕ × Rule)) (rule : Rule) (t : GrammarParser), Run s t news ∧
        s1.rules = (addRule id rule.elements t).rules ∧ s1.symbolIds = t.symbolIds ∧
        ∀ G ρ, Has G news → Names ρ G s1 → Reads vocab ρ .alternates b src (ruleSet G rule) pos1)

/-- The text of an item was read into symbols. -/
def ReadsItem (vocab : Option (List Char → Option ℕ)) (b : Bool) (pos : List Char)
    (ss : List Sym) (pos1 : List Char) (s s1 : GrammarParser) : Prop :=
  s.symbolIds.length ≤ s1.symbolIds.length ∧ (WellFormed s → s1.symbolIds.length < 2 ^ 32 →
      ∃ news, Run s s1 news ∧ ∀ G ρ, Has G news → Names ρ G s1 →
        Reads vocab ρ .item b pos (denotes G ss) pos1)

lemma denotes_charSyms (cs : List ℕ) : denotes G (cs.map charSym) = {cs} := by
  induction cs with
  | nil => exact denotes_nil
  | cons c cs ih =>
    have hcons : charSym c :: cs.map charSym = [charSym c] ++ cs.map charSym := rfl
    rw [map_cons, hcons, denotes_append, ih, denotes_char rfl]
    ext w
    constructor
    · rintro ⟨u, ⟨d, rfl, hd⟩, v, rfl, rfl⟩
      have hdc : c = d := by simpa [charSym, Sym.accepts, CharRange.contains] using hd
      rw [hdc]
      rfl
    · rintro rfl
      exact ⟨[c], ⟨c, rfl, by simp [charSym, Sym.accepts, CharRange.contains]⟩, cs, rfl, rfl⟩

lemma denotes_classSyms (inverse : Bool) (rs : List CharRange) :
    denotes G (classSyms inverse rs) = classSet inverse rs := by
  cases rs with
  | nil => exact denotes_nil
  | cons r rs => exact denotes_char rfl

/-- A name that is read is one of the text. -/
lemma isWord_of_parseName {pos : List Char} (h : parseName src = .ok (name, pos)) :
    IsWord name := by
  rw [parseName] at h
  split at h
  · cases h
    exact all_eq_true.mp all_takeWhile
  · cases h

/-- **The symbols of an item have the language of its text.** -/
theorem readsItem {pos pos1 : List Char} {b : Bool} {ss : List Sym} (hname : IsWord ruleName)
    (hnested : ∀ {src id s pos1 s1}, nested src id s = (.ok pos1, s1) →
      ReadsRule vocab true src id pos1 s s1)
    (h : ItemStep vocab nested ruleName b pos s ss pos1 s1) :
    ReadsItem vocab b pos ss pos1 s s1 := by
  cases h with
  | literal hpos hcs =>
    refine ⟨le_refl _, fun hwf _ => ⟨[], .refl hwf, fun G ρ _ _ => ?_⟩⟩
    rw [denotes_charSyms]
    exact .literal hpos hcs
  | range hpos hrs =>
    refine ⟨le_refl _, fun hwf _ => ⟨[], .refl hwf, fun G ρ _ _ => ?_⟩⟩
    rw [denotes_classSyms]
    exact .range hpos hrs
  | token hpos hid =>
    refine ⟨le_refl _, fun hwf _ => ⟨[], .refl hwf, fun G ρ _ _ => ?_⟩⟩
    rw [denotes_token]
    exact .token hpos hid
  | any hpos =>
    refine ⟨le_refl _, fun hwf _ => ⟨[], .refl hwf, fun G ρ _ _ => ?_⟩⟩
    rw [denotes_char rfl]
    exact .any hpos
  | @name name pos2 hpos hparse =>
    have hword := isWord_of_parseName hparse
    have hle := length_le_getSymbolId name s
    refine ⟨hle, fun hwf hlt => ?_⟩
    obtain ⟨hwf', hpre, hrules, hlook⟩ := getSymbolId_spec hwf hword (hle.trans_lt hlt)
    refine ⟨[], run_getSymbolId hwf' hpre hrules, fun G ρ _ hnames => ?_⟩
    rw [← hnames name _ hword hlook]
    exact .name hpos hparse
  | @group pos2 s1 hpos hsub hend =>
    obtain ⟨hle, hspec⟩ := hnested hsub
    have hle' := length_le_generateSymbolId ruleName s
    refine ⟨hle'.trans hle, fun hwf hlt => ?_⟩
    have hlt' : s.symbolIds.length < 2 ^ 32 := (hle'.trans hle).trans_lt hlt
    obtain ⟨hgen, -⟩ := generateSymbolId_spec hwf hname hlt'
    obtain ⟨news, rule, t, hrun, hrules, hsymbols, hreads⟩ := hspec hgen hlt
    refine ⟨_, run_generate hwf hname hlt' hrun rule hrules hsymbols, fun G ρ hG hnames => ?_⟩
    rw [denotes_ref (hG.right _ (mem_singleton_self _))]
    exact .group hpos (hreads G ρ hG.left hnames) hend

/-- A round that reads something does not end the sequence. -/
def ReadsOn (m : Parse (Option (List Char × SeqState))) : Prop :=
  ∀ s s1, m s ≠ (.ok none, s1)

lemma readsOn_pure (r : List Char × SeqState) : ReadsOn (pure (some r)) := by
  intro s s1 h
  cases (pure_eq_ok.mp h).1

lemma readsOn_bind {α : Type} (m : Parse α) {f : α → Parse (Option (List Char × SeqState))}
    (hf : ∀ a, ReadsOn (f a)) : ReadsOn (m >>= f) := by
  intro s s1 h
  obtain ⟨a, s2, -, h⟩ := Control.bind_eq_ok.mp h
  exact hf a s2 s1 h

/-- A sequence ends at a character that starts neither an item nor a repetition. -/
lemma endStep {pos : List Char} {b : Bool} {st : SeqState}
    (h : sequenceStep vocab nested ruleName b pos st s = (.ok none, s1)) :
    Gbnf.startsItem (peek pos) = false ∧ isOperator (peek pos) = false ∧ s1 = s := by
  have hrepeat : ∀ (pos : List Char) (m n : ℕ), ReadsOn (do
      let st ← handleRepetitions ruleName pos m n st
      pure (some (pos, st))) := fun _ _ _ => readsOn_bind _ fun _ => readsOn_pure _
  rw [sequenceStep] at h
  by_cases h1 : peek pos = '"'
  · rw [if_pos h1] at h
    exact absurd h (readsOn_bind _ (fun _ => readsOn_pure _) s s1)
  by_cases h2 : peek pos = '['
  · rw [if_neg h1, if_pos h2] at h
    exact absurd h (readsOn_bind _ (fun _ => readsOn_pure _) s s1)
  by_cases h3 : peek pos = '<' ∨ peek pos = '!'
  · rw [if_neg h1, if_neg h2, if_pos h3] at h
    exact absurd h (readsOn_bind _ (fun _ => readsOn_pure _) s s1)
  by_cases h4 : isWordChar (peek pos) = true
  · rw [if_neg h1, if_neg h2, if_neg h3, if_pos h4] at h
    exact absurd h (readsOn_bind _ (fun _ => readsOn_bind _ fun _ => readsOn_pure _) s s1)
  by_cases h5 : peek pos = '('
  · rw [if_neg h1, if_neg h2, if_neg h3, if_neg h4, if_pos h5] at h
    exact absurd h (readsOn_bind _ (readsOn_pure) s s1)
  by_cases h6 : peek pos = '.'
  · rw [if_neg h1, if_neg h2, if_neg h3, if_neg h4, if_neg h5, if_pos h6] at h
    exact absurd h (readsOn_pure _ s s1)
  rw [if_neg h1, if_neg h2, if_neg h3, if_neg h4, if_neg h5, if_neg h6] at h
  by_cases h7 : peek pos = '*'
  · rw [if_pos h7] at h
    exact absurd h (hrepeat _ _ _ s s1)
  by_cases h8 : peek pos = '+'
  · rw [if_neg h7, if_pos h8] at h
    exact absurd h (hrepeat _ _ _ s s1)
  by_cases h9 : peek pos = '?'
  · rw [if_neg h7, if_neg h8, if_pos h9] at h
    exact absurd h (hrepeat _ _ _ s s1)
  by_cases h10 : peek pos = '\x7b'
  · rw [if_neg h7, if_neg h8, if_neg h9, if_pos h10] at h
    exact absurd h (readsOn_bind _ (fun _ => hrepeat _ _ _) s s1)
  rw [if_neg h7, if_neg h8, if_neg h9, if_neg h10] at h
  have h3' := not_or.mp h3
  have h4' := Bool.not_eq_true _ ▸ h4
  exact ⟨by simp [Gbnf.startsItem, h1, h2, h3'.1, h3'.2, h4', h5, h6],
    by simp [isOperator, h7, h8, h9, h10], (pure_eq_ok.mp h).2.symm⟩

/-- A sequence was read into the symbols behind `front`. -/
def ReadsSequence (vocab : Option (List Char → Option ℕ)) (b : Bool) (pos : List Char)
    (front : List GrammarElement) (ss : List Sym) (pos1 : List Char) (rule1 : List GrammarElement)
    (s s1 : GrammarParser) : Prop :=
  s.symbolIds.length ≤ s1.symbolIds.length ∧ (WellFormed s → s1.symbolIds.length < 2 ^ 32 →
      ∃ (ss' tail : List Sym) (news : List (ℕ × Rule)),
        rule1 = front ++ elements ss' ++ elements tail ∧ Run s s1 news ∧
        ∀ G ρ, Has G news → Names ρ G s1 → ∃ pos',
          Reads vocab ρ (.repeats (denotes G ss)) b pos (denotes G ss') pos' ∧
          Reads vocab ρ .sequence b pos' (denotes G tail) pos1)

/-- **The rounds of the loop over a sequence** repeat the last item or read another one. -/
theorem readsSequence (hname : IsWord ruleName) {b : Bool}
    (hnested : ∀ {src id s pos1 s1}, nested src id s = (.ok pos1, s1) →
      ReadsRule vocab true src id pos1 s s1) (k : ℕ) :
    ∀ {pos pos1 st rule1 front ss s s1}, LastItem st front ss →
      sequenceLoop vocab nested ruleName b k pos st s = (.ok (pos1, rule1), s1) →
      ReadsSequence vocab b pos front ss pos1 rule1 s s1 := by
  have hend : ∀ {pos st front ss} {s : GrammarParser}, LastItem st front ss →
      Gbnf.startsItem (peek pos) = false → isOperator (peek pos) = false →
      ReadsSequence vocab b pos front ss pos st.rule s s := by
    intro pos st front ss s hst hitem hop
    refine ⟨le_refl _, fun hwf _ => ⟨ss, [], [], ?_, .refl hwf, fun G ρ _ _ => ?_⟩⟩
    · rw [hst.rule]
      exact (append_nil _).symm
    · rw [denotes_nil]
      exact ⟨pos, .noRepeat hop, .empty hitem hop⟩
  induction k with
  | zero => exact fun _ h => (by cases h)
  | succ k ih =>
    intro pos pos1 st rule1 front ss s s1 hst h
    rw [sequenceLoop] at h
    split at h
    · next hnul =>
      obtain ⟨heq, rfl⟩ := pure_eq_ok.mp h
      cases heq
      exact hend hst (by rw [hnul]; rfl) (by rw [hnul]; rfl)
    · obtain ⟨next, s2, hstep, h⟩ := Control.bind_eq_ok.mp h
      cases next with
      | none =>
        obtain ⟨heq, rfl⟩ := pure_eq_ok.mp h
        cases heq
        obtain ⟨hitem, hop, rfl⟩ := endStep hstep
        exact hend hst hitem hop
      | some r =>
        cases hop : isOperator (peek pos) with
        | true =>
          -- the last item is repeated
          obtain ⟨m, n, hread, -, hexp⟩ := operatorStep hop hstep
          obtain ⟨ss2, news2, s', hst2, hmakes, hrules, hsymbols, hlang⟩ :=
            denotes_expand ruleName m n hst s
          rw [← hexp] at hst2 hrules hsymbols
          obtain ⟨hle, hspec⟩ := ih hst2 h
          have hle2 : s.symbolIds.length ≤ s2.symbolIds.length := by
            rw [hsymbols]
            exact length_le_of_makes hmakes
          refine ⟨hle2.trans hle, fun hwf hlt => ?_⟩
          have hrun : Run s s2 news2 := (run_of_makes hname hmakes hwf
            (hsymbols ▸ hle.trans_lt hlt)).congr hrules hsymbols
          obtain ⟨ss', tail, news, hrule, hrun', hreads⟩ := hspec hrun.wellFormed hlt
          refine ⟨ss', tail, _, hrule, hrun.trans hrun', fun G ρ hG hnames => ?_⟩
          obtain ⟨pos', hrep, hseq⟩ := hreads G ρ hG.right hnames
          rw [hlang G hG.left] at hrep
          exact ⟨pos', .again hread hrep, hseq⟩
        | false =>
          -- another item follows
          obtain ⟨ss2, hst2, hitem⟩ := itemStep hop hstep
          obtain ⟨hle2, hitem⟩ := readsItem hname hnested hitem
          obtain ⟨hle, hspec⟩ := ih hst2 h
          refine ⟨hle2.trans hle, fun hwf hlt => ?_⟩
          obtain ⟨news2, hrun, hitem⟩ := hitem hwf (hle.trans_lt hlt)
          obtain ⟨ss', tail, news, hrule, hrun', hreads⟩ := hspec hrun.wellFormed hlt
          refine ⟨ss, ss' ++ tail, _, ?_, hrun.trans hrun', fun G ρ hG hnames => ?_⟩
          · rw [hrule, hst.rule, elements_append, append_assoc]
          · obtain ⟨pos', hrep, hseq⟩ := hreads G ρ hG.right hnames
            rw [denotes_append]
            exact ⟨pos, .noRepeat hop,
              .cons (hitem G ρ hG.left (hnames.mono hrun'.symbols)) hrep hseq⟩

/-- The first item of a sequence has no repetition before it. -/
lemma readsSequence_start (hname : IsWord ruleName) {b : Bool}
    (hnested : ∀ {src id s pos1 s1}, nested src id s = (.ok pos1, s1) →
      ReadsRule vocab true src id pos1 s s1) {pos1 : List Char} {rule rule1} {s s1}
    (h : parseSequence vocab nested ruleName b src rule s = (.ok (pos1, rule1), s1)) :
    s.symbolIds.length ≤ s1.symbolIds.length ∧ (WellFormed s → s1.symbolIds.length < 2 ^ 32 →
        ∃ (ss : List Sym) (news : List (ℕ × Rule)), rule1 = rule ++ elements ss ∧ Run s s1 news ∧
          ∀ G ρ, Has G news → Names ρ G s1 →
            Reads vocab ρ .sequence b src (denotes G ss) pos1) := by
  have hst : LastItem ⟨rule, rule.length, 1⟩ rule [] := ⟨(append_nil _).symm, rfl⟩
  -- a repetition at the start is an error
  have hop : isOperator (peek src) = false := by
    rw [Bool.eq_false_iff]
    intro hop
    rw [parseSequence, sequenceLoop, if_neg (fun hnul => by rw [hnul] at hop; cases hop)] at h
    obtain ⟨next, s2, hstep, h⟩ := Control.bind_eq_ok.mp h
    cases next with
    | none =>
      rw [(endStep hstep).2.1] at hop
      cases hop
    | some r =>
      obtain ⟨m, n, -, hne, -⟩ := operatorStep hop hstep
      exact hne rfl
  obtain ⟨hle, hspec⟩ := readsSequence hname hnested _ hst h
  refine ⟨hle, fun hwf hlt => ?_⟩
  obtain ⟨ss', tail, news, hrule, hrun, hreads⟩ := hspec hwf hlt
  refine ⟨ss' ++ tail, news, by rw [hrule, elements_append, append_assoc], hrun,
    fun G ρ hG hnames => ?_⟩
  obtain ⟨pos', hrep, hseq⟩ := hreads G ρ hG hnames
  obtain ⟨hlang, rfl⟩ := hrep.unique (.noRepeat hop)
  rw [denotes_append, hlang, denotes_nil, one_mul]
  exact hseq

/-- The elements of the other alternates of a rule, and its end. -/
def othersElements : List (List Sym) → List GrammarElement
  | [] => [⟨.end_, 0⟩]
  | a :: as => ⟨.alt, 0⟩ :: alternateElements a as

lemma alternateElements_eq (a : List Sym) (as : List (List Sym)) :
    alternateElements a as = elements a ++ othersElements as := by
  cases as <;> rfl

/-- The languages of the other alternates. -/
def othersSet (G : List Rule) (as : List (List Sym)) : TextSet :=
  {w | ∃ a ∈ as, w ∈ denotes G a}

lemma ruleSet_eq (G : List Rule) (a : List Sym) (as : List (List Sym)) :
    ruleSet G ⟨a, as⟩ = denotes G a + othersSet G as := by
  ext w
  constructor
  · rintro ⟨x, hx, hw⟩
    rcases mem_cons.mp hx with rfl | hx
    · exact .inl hw
    · exact .inr ⟨x, hx, hw⟩
  · rintro (hw | ⟨x, hx, hw⟩)
    · exact ⟨a, mem_cons_self, hw⟩
    · exact ⟨x, mem_cons_of_mem _ hx, hw⟩

/-- The alternates behind one that was read. -/
lemma readsOthers (hname : IsWord ruleName) {b : Bool}
    (hnested : ∀ {src id s pos1 s1}, nested src id s = (.ok pos1, s1) →
      ReadsRule vocab true src id pos1 s s1) (k : ℕ) :
    ∀ {pos pos1 rule rule1 s s1},
      alternatesLoop vocab nested ruleName b k pos rule s = (.ok (pos1, rule1), s1) →
      s.symbolIds.length ≤ s1.symbolIds.length ∧ (WellFormed s → s1.symbolIds.length < 2 ^ 32 →
          ∃ (as : List (List Sym)) (news : List (ℕ × Rule)),
            rule1 ++ [⟨.end_, 0⟩] = rule ++ othersElements as ∧ Run s s1 news ∧
            ∀ G ρ src L, Has G news → Names ρ G s1 → Reads vocab ρ .sequence b src L pos →
              Reads vocab ρ .alternates b src (L + othersSet G as) pos1) := by
  induction k with
  | zero => exact fun h => (by cases h)
  | succ k ih =>
    intro pos pos1 rule rule1 s s1 h
    rw [alternatesLoop] at h
    split at h
    · next hbar =>
      obtain ⟨⟨pos2, rule2⟩, s2, hseq, h⟩ := Control.bind_eq_ok.mp h
      obtain ⟨hle, hseq⟩ := readsSequence_start hname hnested hseq
      obtain ⟨hle', hrest⟩ := ih h
      refine ⟨hle.trans hle', fun hwf hlt => ?_⟩
      obtain ⟨ss, news, rfl, hrun, hseq⟩ := hseq hwf (hle'.trans_lt hlt)
      obtain ⟨as, news', hrule, hrun', hrest⟩ := hrest hrun.wellFormed hlt
      refine ⟨ss :: as, _, ?_, hrun.trans hrun', fun G ρ src L hG hnames hsrc => ?_⟩
      · rw [hrule, othersElements, alternateElements_eq]
        simp
      · have hnext := hseq G ρ hG.left (hnames.mono hrun'.symbols)
        have hsum : othersSet G (ss :: as) = denotes G ss + othersSet G as := ruleSet_eq G ss as
        rw [hsum]
        exact .more hsrc hbar (hrest G ρ _ _ hG.right hnames hnext)
    · next hbar =>
      obtain ⟨heq, rfl⟩ := pure_eq_ok.mp h
      cases heq
      refine ⟨le_refl _, fun hwf _ => ⟨[], [], rfl, .refl hwf, fun G ρ src L _ _ hsrc => ?_⟩⟩
      have hzero : othersSet G [] = 0 := by
        ext w
        exact iff_of_false (fun h => (by obtain ⟨a, ha, -⟩ := h; cases ha)) (Language.notMem_zero w)
      rw [hzero, add_zero]
      exact .last hsrc hbar

/-- **The alternates of a rule have the language of their text.** -/
theorem readsRule (hname : IsWord ruleName) (n : ℕ) : ∀ {b src id s pos1 s1},
    parseAlternates vocab ruleName n b src id s = (.ok pos1, s1) →
      ReadsRule vocab b src id pos1 s s1 := by
  induction n with
  | zero => exact fun h => (by cases h)
  | succ n ih =>
    intro b src id s pos1 s1 h
    obtain ⟨⟨pos2, rule2⟩, s2, hseq, h⟩ := Control.bind_eq_ok.mp h
    obtain ⟨⟨pos3, rule3⟩, s3, hrest, h⟩ := Control.bind_eq_ok.mp h
    obtain ⟨u, s4, hadd, h⟩ := Control.bind_eq_ok.mp h
    have hadd' := onState_eq_ok.mp hadd
    cases hadd'
    obtain ⟨rfl, rfl⟩ := pure_eq_ok.mp h
    obtain ⟨hle, hseq⟩ := readsSequence_start hname ih hseq
    obtain ⟨hle', hrest⟩ := readsOthers hname ih _ hrest
    refine ⟨hle.trans hle', fun hwf hlt => ?_⟩
    obtain ⟨ss, news, rfl, hrun, hseq⟩ := hseq hwf (hle'.trans_lt hlt)
    obtain ⟨as, news', hrule, hrun', hrest⟩ := hrest hrun.wellFormed hlt
    refine ⟨_, ⟨ss, as⟩, s3, hrun.trans hrun', ?_, rfl, fun G ρ hG hnames => ?_⟩
    · have helements : rule3 ++ [⟨.end_, 0⟩] = Rule.elements ⟨ss, as⟩ := by
        rw [hrule, Rule.elements, alternateElements_eq]
        rfl
      rw [← helements]
    · rw [ruleSet_eq]
      have hnext := hseq G ρ hG.left (hnames.mono hrun'.symbols)
      exact hrest G ρ _ _ hG.right hnames hnext

/-! ## Whole grammars -/

/-- The position behind the end of a rule. -/
def lineEnd (pos : List Char) : Option (List Char) :=
  if peek pos = '\r' then
    some (skipSpace true (if peek pos.tail = '\n' then pos.tail.tail else pos.tail))
  else if peek pos = '\n' then some (skipSpace true pos.tail)
  else if peek pos ≠ '\x00' then none
  else some (skipSpace true pos)

/-- The text of a rule, with its name and its language. -/
structure RuleText (vocab : Option (List Char → Option ℕ)) (ρ : List Char → TextSet)
    (src name : List Char) (L : TextSet) (pos : List Char) : Prop where
  body : ∃ pos1 pos2, parseName src = .ok (name, pos1) ∧ peek (skipSpace false pos1) = ':' ∧
    peek (skipSpace false pos1).tail = ':' ∧ peek (skipSpace false pos1).tail.tail = '=' ∧
    Reads vocab ρ .alternates false (skipSpace true (skipSpace false pos1).tail.tail.tail) L pos2 ∧
    lineEnd pos2 = some pos

/-- The rules of a text, with their languages. -/
inductive RulesText (vocab : Option (List Char → Option ℕ)) (ρ : List Char → TextSet) :
    List Char → List (List Char × TextSet) → Prop
  | done {pos} (hpos : peek pos = '\x00') : RulesText vocab ρ pos []
  | rule {pos name L pos1 defs} (hpos : peek pos ≠ '\x00')
      (hrule : RuleText vocab ρ pos name L pos1) (hrest : RulesText vocab ρ pos1 defs) :
      RulesText vocab ρ pos ((name, L) :: defs)

/-- A rule of the text is read. -/
lemma parseRule_spec {pos1 : List Char} (h : parseRule vocab src s = (.ok pos1, s1)) :
    s.symbolIds.length ≤ s1.symbolIds.length ∧ (WellFormed s → s1.symbolIds.length < 2 ^ 32 →
        ∃ (name : List Char) (id : ℕ) (news : List (ℕ × Rule)) (rule : Rule) (t : GrammarParser),
          IsWord name ∧ t.symbolIds.lookup name = some id ∧ Run s t news ∧
          s1.rules = (addRule id rule.elements t).rules ∧ s1.symbolIds = t.symbolIds ∧
          ∀ G ρ, Has G news → Names ρ G s1 → RuleText vocab ρ src name (ruleSet G rule) pos1) := by
  obtain ⟨⟨name, pos⟩, s2, hparse, h⟩ := Control.bind_eq_ok.mp h
  obtain ⟨hname, rfl⟩ := ofExcept_eq_ok.mp hparse
  obtain ⟨id, s3, hid, h⟩ := Control.bind_eq_ok.mp h
  have hid' := onState_eq_ok.mp hid
  cases hid'
  have hword := isWord_of_parseName hname
  split at h
  · cases h
  next hsep =>
  simp only [Bool.not_eq_true', Bool.not_eq_false, decide_eq_true_eq] at hsep
  obtain ⟨pos2, s4, hbody, h⟩ := Control.bind_eq_ok.mp h
  obtain ⟨hle, hspec⟩ := readsRule hword _ hbody
  have hline : lineEnd pos2 = some pos1 ∧ s4 = s1 := by
    rw [lineEnd]
    split_ifs at h ⊢
    all_goals first
      | (cases h; done)
      | (obtain ⟨rfl, rfl⟩ := pure_eq_ok.mp h; exact ⟨rfl, rfl⟩)
  obtain ⟨hline, rfl⟩ := hline
  have hle' := length_le_getSymbolId name s
  refine ⟨hle'.trans hle, fun hwf hlt => ?_⟩
  obtain ⟨hwf', hpre, hrules, hlook⟩ := getSymbolId_spec hwf hword ((hle'.trans hle).trans_lt hlt)
  obtain ⟨news, rule, t, hrun, hrules', hsymbols, hreads⟩ := hspec hwf' hlt
  have hrun' : Run s t news := (run_getSymbolId hwf' hpre hrules).trans hrun
  exact ⟨name, _, news, rule, t, hword, hrun.symbols.lookup_eq_some hlook, hrun', hrules',
    hsymbols, fun G ρ hG hnames => ⟨pos, pos2, hname, hsep.1, hsep.2.1, hsep.2.2,
      hreads G ρ hG hnames, hline⟩⟩

/-- The last rule that was added under an id. -/
def lastAdded (adds : List (ℕ × Rule)) (id : ℕ) : Option Rule := adds.reverse.lookup id

lemma lastAdded_append (adds adds' : List (ℕ × Rule)) (id : ℕ) :
    lastAdded (adds ++ adds') id = (lastAdded adds' id).or (lastAdded adds id) := by
  rw [lastAdded, reverse_append, lookup_append]
  rfl

lemma lastAdded_eq_none {adds : List (ℕ × Rule)} (h : ∀ e ∈ adds, e.1 ≠ id) :
    lastAdded adds id = none := by
  rw [lastAdded, List.lookup_eq_none_iff]
  intro e he
  exact bne_iff_ne.mpr fun heq => h e (mem_reverse.mp he) heq.symm

lemma lastAdded_singleton (a : ℕ × Rule) (id : ℕ) :
    lastAdded [a] id = if id = a.1 then some a.2 else none := by
  obtain ⟨i, rule⟩ := a
  change List.lookup id [(i, rule)] = _
  by_cases h : id = i
  · subst h
    rw [lookup_cons_self, if_pos rfl]
  · rw [lookup_cons, beq_eq_false_iff_ne.mpr h, if_neg h]
    rfl

lemma lastAdded_of_mem {adds : List (ℕ × Rule)} {e : ℕ × Rule} (he : e ∈ adds)
    (hnodup : (adds.map Prod.fst).Nodup) : lastAdded adds e.1 = some e.2 := by
  induction adds with
  | nil => cases he
  | cons a adds ih =>
    rw [map_cons, nodup_cons] at hnodup
    have hsplit := lastAdded_append [a] adds e.1
    rw [singleton_append] at hsplit
    rw [hsplit]
    rcases mem_cons.mp he with rfl | he
    · have hnone : lastAdded adds e.1 = none := lastAdded_eq_none fun e' he' heq =>
        hnodup.1 (heq ▸ mem_map_of_mem he')
      rw [hnone, lastAdded_singleton, if_pos rfl]
      rfl
    · rw [ih he hnodup.2]
      rfl

/-- The rules of a text were read. -/
structure ReadsRules (vocab : Option (List Char → Option ℕ)) (pos : List Char)
    (s s1 : GrammarParser) (adds : List (ℕ × Rule)) : Prop where
  wellFormed : WellFormed s1
  symbols : s.symbolIds <+: s1.symbolIds
  rules : s1.rules = (addRules adds s).rules
  lt : ∀ e ∈ adds, e.1 < s1.symbolIds.length
  later : ∀ e ∈ adds, s.symbolIds.length ≤ e.1 ∨
    ∃ name, IsWord name ∧ s1.symbolIds[e.1]? = some (name, e.1)
  reads : ∀ G ρ, (∀ id rule, lastAdded adds id = some rule → G[id]? = some rule) →
    Names ρ G s1 → ∃ defs, RulesText vocab ρ pos defs ∧
      (∀ e ∈ adds, ∀ name, IsWord name → s1.symbolIds[e.1]? = some (name, e.1) →
        name ∈ defs.map Prod.fst) ∧
      ∀ name L, defs.reverse.lookup name = some L → ρ name = L

/-- A rule of the text before others. -/
lemma ReadsRules.cons {pos pos1 name : List Char} {id : ℕ} {rule : Rule} {t : GrammarParser}
    {adds : List (ℕ × Rule)} (hpos : peek pos ≠ '\x00') (hword : IsWord name)
    (hlook : t.symbolIds.lookup name = some id) (hrun : Run s t news)
    (hrules : s1.rules = (addRule id rule.elements t).rules) (hsymbols : s1.symbolIds = t.symbolIds)
    (hreads : ∀ G ρ, Has G news → Names ρ G s1 → RuleText vocab ρ pos name (ruleSet G rule) pos1)
    (h : ReadsRules vocab pos1 s1 s2 adds) :
    ReadsRules vocab pos s s2 (news ++ (id, rule) :: adds) := by
  have hentry : t.symbolIds[id]? = some (name, id) :=
    hrun.wellFormed.getElem? (mem_of_lookup hlook)
  have hidlt : id < t.symbolIds.length := (List.getElem?_eq_some_iff.mp hentry).1
  have hpre : t.symbolIds <+: s2.symbolIds := hsymbols ▸ h.symbols
  have hkeep : ∀ {i : ℕ} {kv}, t.symbolIds[i]? = some kv → s2.symbolIds[i]? = some kv := by
    intro i kv hkv
    obtain ⟨rest, hrest⟩ := hpre
    rw [← hrest, getElem?_append_left (List.getElem?_eq_some_iff.mp hkv).1]
    exact hkv
  -- a made rule is not replaced later, neither by a made one nor by one of the text
  have hmade : ∀ e ∈ news, lastAdded ((id, rule) :: adds) e.1 = none := by
    intro e he
    obtain ⟨kv, hkv⟩ : ∃ kv, t.symbolIds[e.1]? = some kv :=
      ⟨_, getElem?_eq_getElem (hrun.fresh e he).2⟩
    refine lastAdded_eq_none fun e' he' heq => ?_
    rcases mem_cons.mp he' with rfl | he'
    · have heq' : id = e.1 := heq
      exact hrun.made e he _ (heq' ▸ hentry) hword
    · rcases h.later e' he' with hle | ⟨name', hname', hentry'⟩
      · rw [hsymbols, heq] at hle
        exact absurd (hrun.fresh e he).2 (not_lt.mpr hle)
      · rw [heq, hkeep hkv] at hentry'
        cases hentry'
        exact hrun.made e he _ hkv hname'
  constructor
  · exact h.wellFormed
  · exact hrun.symbols.trans hpre
  · rw [h.rules, addRules_append]
    refine addRules_congr adds (hrules.trans (addRule_rules _ _ hrun.rules))
  · intro e he
    have hle := hpre.length_le
    rcases mem_append.mp he with he | he
    · exact (hrun.fresh e he).2.trans_le hle
    · rcases mem_cons.mp he with rfl | he
      · exact hidlt.trans_le hle
      · exact h.lt e he
  · intro e he
    rcases mem_append.mp he with he | he
    · exact .inl (hrun.fresh e he).1
    · rcases mem_cons.mp he with rfl | he
      · exact .inr ⟨name, hword, hkeep hentry⟩
      · refine (h.later e he).imp_left fun hle => ?_
        rw [hsymbols] at hle
        exact hrun.length_le.trans hle
  · intro G ρ hG hnames
    have hrest : ∀ id' rule', lastAdded adds id' = some rule' → G[id']? = some rule' := by
      intro id' rule' hlast
      refine hG id' rule' ?_
      rw [lastAdded_append, ← singleton_append, lastAdded_append, hlast]
      rfl
    have hhas : Has G news := by
      intro e he
      refine hG e.1 e.2 ?_
      rw [lastAdded_append, hmade e he, lastAdded_of_mem he hrun.nodup]
      rfl
    obtain ⟨defs, htext, hin, hdefs⟩ := h.reads G ρ hrest hnames
    refine ⟨(name, ruleSet G rule) :: defs, .rule hpos
      (hreads G ρ hhas (hnames.mono h.symbols)) htext, ?_, ?_⟩
    · intro e he name' hname' hentry'
      rcases mem_append.mp he with he | he
      · obtain ⟨kv, hkv⟩ : ∃ kv, t.symbolIds[e.1]? = some kv :=
          ⟨_, getElem?_eq_getElem (hrun.fresh e he).2⟩
        rw [hkeep hkv] at hentry'
        cases hentry'
        exact absurd hname' (hrun.made e he _ hkv)
      · rcases mem_cons.mp he with rfl | he
        · rw [hkeep hentry] at hentry'
          cases hentry'
          exact mem_cons_self
        · exact mem_cons_of_mem _ (hin e he name' hname' hentry')
    · intro name' L hlast
      rw [reverse_cons, lookup_append] at hlast
      cases hlater : defs.reverse.lookup name' with
      | some L' =>
        rw [hlater] at hlast
        cases hlast
        exact hdefs name' L hlater
      | none =>
        rw [hlater] at hlast
        by_cases heq : name' = name
        · subst heq
          rw [lookup_cons_self] at hlast
          cases hlast
          -- no later rule has this name, so the rule is in the grammar
          have hnone : lastAdded adds id = none := by
            refine lastAdded_eq_none fun e he heq => ?_
            have hmem := hin e he name' hword (by rw [heq]; exact hkeep hentry)
            obtain ⟨d, hd, rfl⟩ := mem_map.mp hmem
            rw [List.lookup_eq_none_iff] at hlater
            exact absurd (hlater d (mem_reverse.mpr hd)) (by simp)
          rw [hnames name' id hword (hpre.lookup_eq_some hlook)]
          refine denotes_ref (hG id rule ?_)
          rw [lastAdded_append, ← singleton_append, lastAdded_append, hnone,
            lastAdded_singleton, if_pos rfl]
          rfl
        · rw [lookup_cons, beq_eq_false_iff_ne.mpr heq] at hlast
          cases hlast

lemma readsRules (k : ℕ) : ∀ {pos s s1}, rulesLoop vocab k pos s = (.ok (), s1) →
    s.symbolIds.length ≤ s1.symbolIds.length ∧
      (WellFormed s → s1.symbolIds.length < 2 ^ 32 → ∃ adds, ReadsRules vocab pos s s1 adds) := by
  induction k with
  | zero => exact fun h => (by cases h)
  | succ k ih =>
    intro pos s s1 h
    rw [rulesLoop] at h
    split at h
    · next hpos =>
      obtain ⟨-, rfl⟩ := pure_eq_ok.mp h
      refine ⟨le_refl _, fun hwf _ => ⟨[], hwf, prefix_refl _, rfl,
        fun _ he => absurd he not_mem_nil, fun _ he => absurd he not_mem_nil,
        fun G ρ _ _ => ⟨[], .done hpos, fun _ he => absurd he not_mem_nil,
          fun _ _ hlast => (by cases hlast)⟩⟩⟩
    · next hpos =>
      obtain ⟨pos1, s2, hrule, h⟩ := Control.bind_eq_ok.mp h
      obtain ⟨hle, hspec⟩ := parseRule_spec hrule
      obtain ⟨hle', hrest⟩ := ih h
      refine ⟨hle.trans hle', fun hwf hlt => ?_⟩
      obtain ⟨name, id, news, rule, t, hword, hlook, hrun, hrules, hsymbols, hreads⟩ :=
        hspec hwf (hle'.trans_lt hlt)
      have hwf2 : WellFormed s2 := ⟨by rw [hsymbols]; exact hrun.wellFormed.ids, by
        rw [hsymbols]; exact hrun.wellFormed.names⟩
      obtain ⟨adds, hadds⟩ := hrest hwf2 hlt
      exact ⟨_, .cons hpos hword hlook hrun hrules hsymbols hreads hadds⟩

/-- The rules that are there after one is added. -/
lemma addRule_getD (hid : id + 1 < 2 ^ 32) (rule : List GrammarElement) (s : GrammarParser) :
    (addRule id rule s).rules.length = max s.rules.length (id + 1) ∧
      ∀ j, (addRule id rule s).rules.getD j [] = if j = id then rule else s.rules.getD j [] := by
  have hmod : (id + 1) % 2 ^ 32 = id + 1 := Nat.mod_eq_of_lt hid
  have hset : ∀ (l : GrammarRules) (j : ℕ), id < l.length →
      (l.set id rule).getD j [] = if j = id then rule else l.getD j [] := by
    intro l j hlt
    rw [getD_eq_getElem?_getD, getElem?_set, getD_eq_getElem?_getD]
    by_cases hj : id = j
    · subst hj
      simp [hlt]
    · rw [if_neg hj, if_neg (Ne.symm hj)]
  by_cases hle : s.rules.length ≤ id
  · have hrules : (addRule id rule s).rules =
        (s.rules ++ .replicate (id + 1 - s.rules.length) []).set id rule := by
      simp only [addRule, if_pos hle, hmod, resize]
      rw [take_of_length_le (by omega)]
    rw [hrules]
    constructor
    · rw [length_set, length_append, length_replicate]
      omega
    · intro j
      rw [hset _ _ (by rw [length_append, length_replicate]; omega)]
      congr 1
      rw [getD_eq_getElem?_getD, getD_eq_getElem?_getD, getElem?_append]
      split
      · rfl
      · next hj =>
        rw [getElem?_eq_none (Nat.le_of_not_lt hj), getElem?_replicate]
        split <;> rfl
  · have hrules : (addRule id rule s).rules = s.rules.set id rule := by
      simp only [addRule, if_neg hle]
    rw [hrules]
    exact ⟨by rw [length_set]; omega, fun j => hset _ j (by omega)⟩

/-- The rules that are there after some are added. -/
lemma addRules_getD (adds : List (ℕ × Rule)) : ∀ {s : GrammarParser},
    (∀ e ∈ adds, e.1 + 1 < 2 ^ 32) → (∀ e ∈ adds, e.1 < (addRules adds s).rules.length) ∧
      s.rules.length ≤ (addRules adds s).rules.length ∧
      ∀ j, (addRules adds s).rules.getD j [] =
        (lastAdded adds j).elim (s.rules.getD j []) Rule.elements := by
  induction adds with
  | nil => exact fun _ => ⟨fun _ he => absurd he not_mem_nil, le_refl _, fun _ => rfl⟩
  | cons a adds ih =>
    intro s hlt
    obtain ⟨ha, hlt⟩ := forall_mem_cons.mp hlt
    obtain ⟨hlen, hget⟩ := addRule_getD ha a.2.elements s
    obtain ⟨h1, h2, h3⟩ := ih (s := addRule a.1 a.2.elements s) hlt
    have hcons : addRules (a :: adds) s = addRules adds (addRule a.1 a.2.elements s) := rfl
    rw [hcons]
    refine ⟨fun e he => ?_, by omega, fun j => ?_⟩
    · rcases mem_cons.mp he with rfl | he
      · omega
      · exact h1 e he
    · rw [h3, hget, ← singleton_append, lastAdded_append]
      cases lastAdded adds j with
      | some rule => rfl
      | none =>
        rw [Option.none_or, lastAdded_singleton]
        by_cases hj : j = a.1
        · rw [if_pos hj, if_pos hj]
          rfl
        · rw [if_neg hj, if_neg hj]

/-- The language of a name in a grammar. -/
def meaning (G : List Rule) (s : GrammarParser) (name : List Char) : TextSet :=
  (s.symbolIds.lookup name).elim 0 fun id => denotes G [.ref id]

/-- **The rules of a text are those of a grammar in which every name has the language of the text
of its last rule.** -/
theorem parse_meaning (h : parse vocab src new = (.ok none, s))
    (hlt : s.symbolIds.length < 2 ^ 32) :
    ∃ G, s.rules = encode G ∧ ∃ defs, RulesText vocab (meaning G s) (skipSpace true src) defs ∧
      ∀ name L, defs.reverse.lookup name = some L → meaning G s name = L := by
  obtain ⟨s1, hloop, hfinish⟩ : ∃ s1, rulesLoop vocab ((skipSpace true src).length + 1)
      (skipSpace true src) new = (.ok (), s1) ∧
      GrammarParser.finish (undefinedRule s1) s1 = (.ok none, s) := by
    simp only [parse] at h
    split at h
    · next s1 heq => exact ⟨s1, heq, h⟩
    · cases h
    · cases h
    · cases h
  have hdefined : undefinedRule s1 = none := by
    have hok := (Prod.mk.inj hfinish).1
    exact Outcome.ok.inj hok
  obtain rfl : s1 = s := by
    rw [hdefined] at hfinish
    exact (Prod.mk.inj hfinish).2
  have hwf : WellFormed new := ⟨rfl, fun _ hkv => absurd hkv not_mem_nil⟩
  obtain ⟨adds, hadds⟩ := (readsRules _ hloop).2 hwf hlt
  have hids : ∀ e ∈ adds, e.1 + 1 < 2 ^ 32 := fun e he => by
    have := hadds.lt e he
    omega
  obtain ⟨hin, -, hget⟩ := addRules_getD adds (s := new) hids
  rw [← hadds.rules] at hin hget
  -- a rule that was not added is empty, which is an error
  have hadded : ∀ id (hid : id < s1.rules.length), ∃ rule, lastAdded adds id = some rule ∧
      s1.rules[id] = rule.elements := by
    intro id hid
    have hat : s1.rules.getD id [] = s1.rules[id] := by
      rw [getD_eq_getElem?_getD, getElem?_eq_getElem hid, Option.getD_some]
    have hget := hat.symm.trans (hget id)
    cases hlast : lastAdded adds id with
    | some rule =>
      rw [hlast] at hget
      exact ⟨rule, rfl, hget⟩
    | none =>
      rw [hlast] at hget
      have hnone := findSome?_eq_none_iff.mp hdefined _ (getElem_mem hid)
      have hempty : s1.rules[id] = [] := hget
      rw [if_pos hempty] at hnone
      cases hnone
  have hmem : ∀ id rule, lastAdded adds id = some rule → id < s1.rules.length := by
    intro id rule hlast
    obtain ⟨l1, l2, heq, -⟩ := lookup_eq_some_iff.mp hlast
    exact hin (id, rule) (mem_reverse.mp (by simp [heq]))
  let G := (List.range s1.rules.length).map fun id => (lastAdded adds id).getD ⟨[], []⟩
  have hrules : s1.rules = encode G := by
    refine ext_getElem (by simp [encode, G]) fun id hid hid' => ?_
    obtain ⟨rule, hlast, helems⟩ := hadded id hid
    simp [encode, G, hlast, helems]
  have hlast : ∀ id rule, lastAdded adds id = some rule → G[id]? = some rule := by
    intro id rule hlast
    rw [getElem?_map, getElem?_range (hmem id rule hlast), Option.map_some, hlast, Option.getD_some]
  obtain ⟨defs, htext, -, hdefs⟩ := hadds.reads G (meaning G s1) hlast fun name id _ hlook => by
    rw [meaning, hlook]
    rfl
  exact ⟨G, hrules, defs, htext, hdefs⟩

end Gbnf
end Llama
