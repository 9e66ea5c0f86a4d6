import ArithScript.Proofs.Grammar.Spacing

/-!
Texts that differ in the ignored text between their tokens. They are divided into the same tokens,
at other places, unless there are line breaks with nothing but ignored text between them.
-/
namespace ArithScript

/-- The ignored text is exchanged for other ignored text. What is not empty does not become empty,
and what is empty stays so exactly if it is to be kept. -/
structure Exchanged (kept : Prop) (gap gap' : List Char) : Prop where
  ignorable : Ignorable gap
  ignorable' : Ignorable gap'
  nil_iff : gap' = [] ↔ gap = [] ∧ kept

/-- The text from the offset on and the same text with ignored text exchanged in front of each token
and at the end. Where there is none, it is kept so at some offsets. -/
inductive Respaced (start : StartSymbol) (kept : Nat → Prop) :
    Nat → List Char → List Char → Prop
  | last {offset : Nat} {gap gap' text : List Char} (hg : Exchanged (kept offset) gap gap')
      (hi : Lexeme.ignored text = 0) (hf : Lexeme.first? start.hasTerminal text = none) :
      Respaced start kept offset (gap ++ text) (gap' ++ text)
  | token {offset : Nat} {gap gap' lexeme rest rest' : List Char} {t : Terminal}
      (hg : Exchanged (kept offset) gap gap')
      (hf : Lexeme.first? start.hasTerminal (lexeme ++ rest) = some (t, lexeme.length))
      (later : Respaced start kept (offset + gap.length + lexeme.length) rest rest') :
      Respaced start kept offset (gap ++ (lexeme ++ rest)) (gap' ++ (lexeme ++ rest'))

/-- The first of the tokens, if it is no line break, comes without a gap exactly if it did before
and that is kept. -/
def Touching (kept : Nat → Prop) (stop stop' : Nat) (tokens tokens' : List Token) : Prop :=
  ∀ next ∈ tokens.head?, next.terminal ≠ .newline → ∀ next' ∈ tokens'.head?,
    (next'.start = stop' ↔ next.start = stop ∧ kept stop)

/-- The same tokens, line breaks with any text, at other places. -/
inductive Alike (kept : Nat → Prop) : List Token → List Token → Prop
  | nil : Alike kept [] []
  | newline {token token' : Token} {rest rest' : List Token} (ht : token.terminal = .newline)
      (ht' : token'.terminal = .newline) (later : Alike kept rest rest') :
      Alike kept (token :: rest) (token' :: rest')
  | token {token token' : Token} {rest rest' : List Token} (hn : token.terminal ≠ .newline)
      (ht : token'.terminal = token.terminal) (hx : token'.text = token.text)
      (next : Touching kept token.stop token'.stop rest rest') (later : Alike kept rest rest') :
      Alike kept (token :: rest) (token' :: rest')

variable {start : StartSymbol} {kept : Nat → Prop} {offset : Nat}
  {gap gap' lexeme text text' rest : List Char} {tokens tokens' : List Token}

namespace Exchanged
variable {p : Prop}

theorem cons (h : Exchanged p gap gap') {front front' : List Char} (hf : Ignorable front)
    (hf' : Ignorable front') (hne : front ≠ []) (hne' : front' ≠ []) (q : Prop) :
    Exchanged q (front ++ gap) (front' ++ gap') where
  ignorable := hf.append h.ignorable
  ignorable' := hf'.append h.ignorable'
  nil_iff := by simp [hne, hne']

theorem isEnd (h : Exchanged p gap gap') (hne : gap' ≠ []) :
    ∃ c rest, gap' = c :: rest ∧ Lexeme.isEnd c = true := by
  obtain ⟨c, rest, rfl⟩ := List.exists_cons_of_ne_nil hne
  exact ⟨c, rest, rfl, h.ignorable'.isEnd_of_cons⟩

end Exchanged

namespace Respaced

theorem skip {front front' : List Char} (h : Respaced start kept (offset + front.length) text text')
    (hf : Ignorable front) (hf' : Ignorable front') (hne : front ≠ []) (hne' : front' ≠ []) :
    Respaced start kept offset (front ++ text) (front' ++ text') := by
  cases h with
  | last hg hi hfirst =>
    rw [← List.append_assoc, ← List.append_assoc]
    exact last (hg.cons hf hf' hne hne' _) hi hfirst
  | token hg hfirst later =>
    rw [← List.append_assoc front, ← List.append_assoc front']
    rw [Nat.add_assoc offset, ← List.length_append] at later
    exact token (hg.cons hf hf' hne hne' _) hfirst later

theorem exists_front (h : Respaced start kept offset text text') :
    text' = text ∨ ∃ front c back back', Lexeme.isEnd c = true ∧ text = front ++ back ∧
      text' = front ++ c :: back' := by
  induction h with
  | @last _ gap gap' text hg =>
    by_cases hnil : gap' = []
    · rw [hnil, (hg.nil_iff.mp hnil).1]
      exact .inl rfl
    · obtain ⟨c, rest, rfl, hc⟩ := hg.isEnd hnil
      exact .inr ⟨[], c, gap ++ text, rest ++ text, hc, rfl, rfl⟩
  | @token _ gap gap' lexeme rest rest' _ hg hf later ih =>
    by_cases hnil : gap' = []
    · rw [hnil, (hg.nil_iff.mp hnil).1]
      rcases ih with rfl | ⟨front, c, back, back', hc, rfl, rfl⟩
      · exact .inl rfl
      · exact .inr ⟨lexeme ++ front, c, back, back', hc, by simp, by simp⟩
    · obtain ⟨c, more, rfl, hc⟩ := hg.isEnd hnil
      exact .inr ⟨[], c, gap ++ (lexeme ++ rest), more ++ (lexeme ++ rest'), hc, rfl, rfl⟩

theorem first?_eq {t : Terminal} (h : Respaced start kept offset text text')
    (hf : Lexeme.first? start.hasTerminal (lexeme ++ text) = some (t, lexeme.length))
    (ht : t ≠ .newline) :
    Lexeme.first? start.hasTerminal (lexeme ++ text') = some (t, lexeme.length) := by
  rcases h.exists_front with rfl | ⟨front, c, back, back', hc, rfl, rfl⟩
  · exact hf
  · rw [← List.append_assoc] at hf ⊢
    exact Lexeme.first?_of_prefix hf (by simp) ht hc

theorem ignorable_of_nil (h : Respaced start kept offset [] text') : Ignorable text' := by
  generalize htext : [] = text at h
  cases h with
  | last hg =>
    obtain ⟨-, rfl⟩ := List.nil_eq_append_iff.mp htext
    rw [List.append_nil]
    exact hg.ignorable'
  | @token _ _ _ lexeme _ _ _ hg hf later =>
    obtain ⟨-, hnil⟩ := List.nil_eq_append_iff.mp htext
    obtain ⟨rfl, -⟩ := List.append_eq_nil_iff.mp hnil
    exact absurd rfl (Lexeme.first?_eq_some_iff.mp hf).2.2.1

end Respaced

theorem Token.scanFrom_lexeme {t : Terminal}
    (h : Lexeme.first? start.hasTerminal (lexeme ++ rest) = some (t, lexeme.length))
    (offset : Nat) :
    scanFrom start offset (lexeme ++ rest) =
      (scanFrom start (offset + lexeme.length) rest).map
        (⟨t, String.ofList lexeme, offset, offset + lexeme.length⟩ :: ·) := by
  obtain ⟨-, hn, hpos, -⟩ := Lexeme.first?_eq_some_iff.mp h
  have hi := Lexeme.ignored_of_lexeme (hn.trans_ne hpos)
  obtain ⟨n, hlength⟩ := Nat.exists_eq_add_one_of_ne_zero hpos
  have hne : lexeme ++ rest ≠ [] := by
    intro hnil
    exact hpos (congrArg List.length (List.append_eq_nil_iff.mp hnil).1)
  rw [hlength] at h
  rw [scanFrom_of_first? hi hne h, ← hlength, List.drop_left, ofPrefix, List.take_left]

theorem Token.newlines_of_first?
    (h : Lexeme.first? start.hasTerminal (lexeme ++ rest) = some (.newline, lexeme.length)) :
    start = .script ∧ Lexeme.newlines (lexeme ++ rest) = lexeme.length ∧ lexeme ≠ [] := by
  obtain ⟨ho, hn, hpos, -⟩ := Lexeme.first?_eq_some_iff.mp h
  refine ⟨?_, hn, fun hnil => hpos (congrArg List.length hnil)⟩
  cases start with
  | script => rfl
  | expr => contradiction

theorem Alike.head_ne (h : Alike kept tokens tokens')
    (hn : ∀ token ∈ tokens.head?, token.terminal ≠ .newline) :
    ∀ token ∈ tokens'.head?, token.terminal ≠ .newline := by
  cases h with
  | nil => exact hn
  | newline ht => exact absurd ht (hn _ rfl)
  | token hn' ht =>
    rintro _ ⟨⟩
    exact ht.trans_ne hn'

theorem Alike.symm (h : Alike (fun _ => True) tokens tokens') :
    Alike (fun _ => True) tokens' tokens := by
  induction h with
  | nil => exact nil
  | newline ht ht' later ih => exact newline ht' ht ih
  | @token first first' rest rest' hn ht hx next later ih =>
    refine token (ht.trans_ne hn) ht.symm hx.symm (fun second' hs' hn' second hs => ?_) ih
    have hterminal : second.terminal ≠ .newline :=
      ih.head_ne (fun _ hmem => Option.some.inj (hs'.symm.trans hmem) ▸ hn') second hs
    have htouch := next second hs hterminal second' hs'
    rw [and_true] at htouch ⊢
    exact htouch.symm

theorem Touching.of_start {token token' : Token} {more more' : List Token} {stop stop' : Nat}
    (h : token'.start = stop' ↔ token.start = stop ∧ kept stop) :
    Touching kept stop stop' (token :: more) (token' :: more') := by
  rintro _ ⟨⟩ - _ ⟨⟩
  exact h

theorem Exchanged.start_iff {p : Prop} (h : Exchanged p gap gap') (offset offset' : Nat) :
    offset' + gap'.length = offset' ↔ offset + gap.length = offset ∧ p := by
  rw [Nat.add_eq_left, Nat.add_eq_left, List.length_eq_zero_iff, List.length_eq_zero_iff]
  exact h.nil_iff

namespace Respaced

theorem scan_none (h : Respaced start kept offset text text') (offset' : Nat)
    (hnone : Token.scanFrom start offset text = none) :
    Token.scanFrom start offset' text' = none := by
  induction h generalizing offset' with
  | @last _ gap gap' text hg hi hf =>
    rw [Token.scanFrom_ignorable hg.ignorable] at hnone
    rw [Token.scanFrom_ignorable hg.ignorable']
    have hne : text ≠ [] := by
      rintro rfl
      rw [Token.scanFrom_nil] at hnone
      contradiction
    rw [Token.scanFrom]
    simp [hne, hi, hf]
  | @token _ gap gap' lexeme rest rest' t hg hf later ih =>
    rw [Token.scanFrom_ignorable hg.ignorable, Token.scanFrom_lexeme hf, Option.map_eq_none_iff]
      at hnone
    rw [Token.scanFrom_ignorable hg.ignorable']
    by_cases ht : t = .newline
    · subst ht
      have hrest : rest ≠ [] := by
        rintro rfl
        rw [Token.scanFrom_nil] at hnone
        contradiction
      obtain ⟨rfl, hn, hne⟩ := Token.newlines_of_first? hf
      exact Token.scanFrom_newlines_none hn hne hrest (ih _ hnone)
    · rw [Token.scanFrom_lexeme (later.first?_eq hf ht), ih _ hnone]
      rfl

/-- The tokens of respaced text are the same at other places, unless two line breaks follow each
other: as there is ignored text between them, they might become one. -/
theorem scan_some (h : Respaced start kept offset text text') (offset' : Nat)
    (hscan : Token.scanFrom start offset text = some tokens) (htidy : Tidy tokens) :
    ∃ tokens', Token.scanFrom start offset' text' = some tokens' ∧ Alike kept tokens tokens' ∧
      Touching kept offset offset' tokens tokens' := by
  induction h generalizing offset' tokens with
  | @last _ gap gap' text hg hi hf =>
    rw [Token.scanFrom_ignorable hg.ignorable] at hscan
    rw [Token.scanFrom_ignorable hg.ignorable']
    by_cases hne : text = []
    · subst hne
      rw [Token.scanFrom_nil] at hscan ⊢
      obtain rfl := Option.some.inj hscan
      exact ⟨[], rfl, .nil, nofun⟩
    · rw [Token.scanFrom] at hscan
      simp [hne, hi, hf] at hscan
  | @token offset gap gap' lexeme rest rest' t hg hf later ih =>
    rw [Token.scanFrom_ignorable hg.ignorable, Token.scanFrom_lexeme hf] at hscan
    rw [Token.scanFrom_ignorable hg.ignorable']
    obtain ⟨more, hmore, rfl⟩ := Option.map_eq_some_iff.mp hscan
    obtain ⟨hnext, htidy'⟩ := List.isChain_cons.mp htidy
    by_cases ht : t = .newline
    · subst ht
      obtain ⟨rfl, hn, hne⟩ := Token.newlines_of_first? hf
      -- line breaks take gaps after them, so what touches them is not known from the tokens
      have htouching : ∀ ts, Touching kept offset offset'
          (⟨.newline, String.ofList lexeme, offset + gap.length,
            offset + gap.length + lexeme.length⟩ :: more) ts := by
        rintro ts _ ⟨⟩ hself
        exact absurd rfl hself
      by_cases hrest : rest = []
      · subst hrest
        rw [Token.scanFrom_nil] at hmore
        obtain rfl := Option.some.inj hmore
        rw [List.append_nil] at hn
        obtain ⟨newline, hnewline, hend⟩ := Token.scanFrom_newlines_ignorable hn hne
          later.ignorable_of_nil (offset' + gap'.length)
        exact ⟨[newline], hend, .newline rfl hnewline .nil, htouching _⟩
      · obtain ⟨more', hmore', halike, -⟩ :=
          ih (offset' + gap'.length + lexeme.length) hmore htidy'
        obtain ⟨newline, hnewline, hfound⟩ := Token.scanFrom_newlines_some hn hne hrest hmore'
          (halike.head_ne fun token htoken => hnext token htoken rfl)
        exact ⟨newline :: more', hfound, .newline rfl hnewline halike, htouching _⟩
    · obtain ⟨more', hmore', halike, htouching⟩ :=
        ih (offset' + gap'.length + lexeme.length) hmore htidy'
      rw [Token.scanFrom_lexeme (later.first?_eq hf ht), hmore']
      exact ⟨_, rfl, .token ht rfl rfl htouching halike,
        .of_start (hg.start_iff offset offset')⟩

end Respaced

/-- The text with a gap put in at an offset. -/
def insertAt (place : Nat) (gap text : List Char) : List Char :=
  text.take place ++ (gap ++ text.drop place)

theorem insertAt_zero (gap text : List Char) : insertAt 0 gap text = gap ++ text := rfl

theorem insertAt_add (n place : Nat) (gap text : List Char) :
    insertAt (n + place) gap text = text.take n ++ insertAt place gap (text.drop n) := by
  rw [insertAt, insertAt, List.take_add, List.drop_drop, List.append_assoc]

/-- The offset is the beginning or the end of a token. -/
def Borders (place : Nat) (tokens : List Token) : Prop :=
  ∃ token ∈ tokens, place = token.start ∨ place = token.stop

theorem Token.le_of_scanFrom (h : scanFrom start offset text = some tokens) :
    ∀ token ∈ tokens, offset ≤ token.start ∧ token.start ≤ token.stop := by
  fun_induction scanFrom start offset text generalizing tokens with
  | case1 =>
    obtain rfl := Option.some.inj h
    simp
  | case2 offset text hne n hi ih =>
    intro token ht
    have hle := ih h token ht
    omega
  | case3 offset text hne hi t n hfirst ih =>
    obtain ⟨later, hlater, rfl⟩ := Option.map_eq_some_iff.mp h
    refine List.forall_mem_cons.mpr ⟨by simp [ofPrefix], fun token ht => ?_⟩
    have hle := ih hlater token ht
    omega
  | case4 => contradiction

theorem Borders.le {place : Nat} (h : Borders place tokens)
    (hscan : Token.scanFrom start offset text = some tokens) : offset ≤ place := by
  obtain ⟨token, ht, hplace⟩ := h
  have hle := Token.le_of_scanFrom hscan token ht
  omega

namespace Respaced

/-! What the division of a text does at the front of the text can be exchanged for what is there in
respaced text. -/

theorem nil (hg : Exchanged (kept offset) [] gap) : Respaced start kept offset [] gap := by
  have hf : Lexeme.first? start.hasTerminal [] = none :=
    Lexeme.first?_eq_none_iff.mpr fun t _ => Lexeme.ofTerminal_nil t
  rw [← List.append_nil gap]
  exact last hg rfl hf

theorem of_ignored {n : Nat} (hi : Lexeme.ignored text = n + 1) (hg : Ignorable gap)
    (hne : gap ≠ [])
    (later : Respaced start kept (offset + (n + 1)) (text.drop (n + 1)) text') :
    Respaced start kept offset text (gap ++ text') := by
  have hle := Lexeme.ignored_le text
  have hlength : (text.take (n + 1)).length = n + 1 := List.length_take_of_le (by omega)
  have hfront : text.take (n + 1) ≠ [] := List.ne_nil_of_length_pos (by omega)
  rw [← hlength] at later
  have hwhole := later.skip (Ignorable.of_ignored hi) hg hfront hne
  rwa [hlength, List.take_append_drop] at hwhole

theorem of_first? {n : Nat} {t : Terminal} (hg : Exchanged (kept offset) [] gap)
    (hf : Lexeme.first? start.hasTerminal text = some (t, n))
    (later : Respaced start kept (offset + n) (text.drop n) text') :
    Respaced start kept offset text (gap ++ (text.take n ++ text')) := by
  have hle := Lexeme.ofTerminal_le t text
  rw [(Lexeme.first?_eq_some_iff.mp hf).2.1] at hle
  have hlength : (text.take n).length = n := List.length_take_of_le hle
  have hfirst : Lexeme.first? start.hasTerminal (text.take n ++ text.drop n) =
      some (t, (text.take n).length) := by
    rw [List.take_append_drop, hlength, hf]
  have hlater : Respaced start kept (offset + (text.take n).length) (text.drop n) text' := by
    rwa [hlength]
  have hwhole := token hg hfirst hlater
  rwa [List.take_append_drop, List.nil_append] at hwhole

theorem before (hscan : Token.scanFrom start offset text = some tokens)
    (hk : ∀ place, offset < place → kept place) (hg : Ignorable gap) (hs : gap = [] ↔ kept offset) :
    Respaced start kept offset text (gap ++ text) := by
  fun_induction Token.scanFrom start offset text generalizing tokens gap with
  | case1 offset =>
    rw [List.append_nil]
    exact nil ⟨.nil, hg, by simp [hs]⟩
  | case2 offset text hne n hi ih =>
    have hlater := ih hscan (fun place hplace => hk place (by omega)) .nil
      (iff_of_true rfl (hk _ (by omega)))
    have hfront : text.take (n + 1) ≠ [] := by simp [hne]
    have hwhole := of_ignored hi (hg.append (.of_ignored hi)) (by simp [hfront]) hlater
    rwa [List.nil_append, List.append_assoc, List.take_append_drop] at hwhole
  | case3 offset text hne hi t n hfirst ih =>
    obtain ⟨later, hmore, rfl⟩ := Option.map_eq_some_iff.mp hscan
    have hlater := ih hmore (fun place hplace => hk place (by omega)) .nil
      (iff_of_true rfl (hk _ (by omega)))
    have hwhole := of_first? ⟨.nil, hg, by simp [hs]⟩ hfirst hlater
    rwa [List.nil_append, List.take_append_drop] at hwhole
  | case4 => contradiction

theorem insertAt_self (hscan : Token.scanFrom start offset text = some tokens)
    (hg : Ignorable gap) :
    Respaced start (fun x => x = offset → gap = []) offset text
      (insertAt (offset - offset) gap text) := by
  rw [Nat.sub_self, insertAt_zero]
  refine before hscan (fun x hx heq => ?_) hg (by simp)
  omega

theorem of_insertAt {place : Nat} (hscan : Token.scanFrom start offset text = some tokens)
    (hg : Ignorable gap) (hp : place = offset ∨ Borders place tokens) :
    Respaced start (fun x => x = place → gap = []) offset text
      (insertAt (place - offset) gap text) := by
  fun_induction Token.scanFrom start offset text generalizing tokens with
  | case1 offset =>
    rcases hp with rfl | ⟨_, hmem, _⟩
    · exact insertAt_self Token.scanFrom_nil hg
    · obtain rfl := Option.some.inj hscan
      contradiction
  | case2 offset text hne n hi ih =>
    rcases hp with rfl | hp
    · exact insertAt_self ((Token.scanFrom_of_ignored hi hne).trans hscan) hg
    · obtain ⟨k, rfl⟩ := Nat.exists_eq_add_of_le (hp.le hscan)
      have hlater := ih hscan (.inr hp)
      rw [Nat.add_sub_cancel_left] at hlater
      rw [show offset + (n + 1) + k - offset = n + 1 + k by omega, insertAt_add]
      exact of_ignored hi (.of_ignored hi) (by simp [hne]) hlater
  | case3 offset text hne hi t n hfirst ih =>
    by_cases hself : place = offset
    · subst hself
      exact insertAt_self ((Token.scanFrom_of_first? hi hne hfirst).trans hscan) hg
    · obtain ⟨later, hmore, rfl⟩ := Option.map_eq_some_iff.mp hscan
      have hp' : place = offset + (n + 1) ∨ Borders place later := by
        obtain ⟨token, ht, hplace⟩ := hp.resolve_left hself
        rcases List.mem_cons.mp ht with rfl | ht
        · exact .inl (hplace.resolve_left hself)
        · exact .inr ⟨token, ht, hplace⟩
      have hle : offset + (n + 1) ≤ place := by
        rcases hp' with rfl | hp'
        · exact Nat.le_refl _
        · exact hp'.le hmore
      obtain ⟨k, rfl⟩ := Nat.exists_eq_add_of_le hle
      have hlater := ih hmore hp'
      rw [Nat.add_sub_cancel_left] at hlater
      rw [show offset + (n + 1) + k - offset = n + 1 + k by omega, insertAt_add]
      have hgap : Exchanged (offset = offset + (n + 1) + k → gap = []) [] [] :=
        ⟨.nil, .nil, iff_of_true rfl ⟨rfl, fun heq => by omega⟩⟩
      exact of_first? hgap hfirst hlater
  | case4 => contradiction

end Respaced

/-- The text with each continuation that is skipped between its tokens replaced with a space. -/
def unfoldLines (start : StartSymbol) (text : List Char) : List Char :=
  if _nonempty : text = [] then []
  else
    match Lexeme.ignored text with
    | n + 1 =>
      (if Lexeme.blanks text = 0 then [' '] else text.take (n + 1)) ++
        unfoldLines start (text.drop (n + 1))
    | 0 =>
      match Lexeme.first? start.hasTerminal text with
      | some (_, n + 1) => text.take (n + 1) ++ unfoldLines start (text.drop (n + 1))
      | _ => text
termination_by text.length
decreasing_by all_goals exact Lexeme.length_drop_lt (Nat.succ_pos _) _nonempty

theorem Respaced.of_unfoldLines (start : StartSymbol) (offset : Nat) (text : List Char) :
    Respaced start (fun _ => True) offset text (unfoldLines start text) := by
  have hnone : Exchanged True [] [] := ⟨.nil, .nil, by simp⟩
  fun_induction unfoldLines start text generalizing offset with
  | case1 => exact nil hnone
  | case2 text hne n hi ih =>
    refine of_ignored hi ?_ ?_ (ih _)
    · split
      · exact .blank rfl .nil
      · exact .of_ignored hi
    · split <;> simp [hne]
  | case3 text hne hi t n hfirst ih => exact of_first? hnone hfirst (ih _)
  | case4 text hne hi hfirst =>
    change Respaced start (fun _ => True) offset ([] ++ text) ([] ++ text)
    exact last hnone hi (Lexeme.first?_eq_none_of_forall fun t n => hfirst t n)

end ArithScript
