import Xv6.Sh.Grammar

-- The parser against the grammar.

namespace Sh

open List Function

attribute [local simp] Deriv.toks

variable {i : Nat} {E : Panic → Prop} {line toks : List UInt8}

section

variable {α β : Type}

-- `m` ends within the arrays, with no panic outside of `E`, and its result satisfies `Q`.
def Holds (E : Panic → Prop) (m : Parser α) (i : Nat) (Q : α → Nat → Prop) : Prop :=
  match m i with
  | .ok a j => Q a j
  | .panic e => E e
  | .overrun => False
  | .fuel => False

theorem holds_panic {e : Panic} {Q : α → Nat → Prop} (h : E e) : Holds E (Parser.panic e) i Q := h

variable {m : Parser α}

variable {P : α → Nat → Prop} {Q : β → Nat → Prop} {f : α → Parser β}

theorem Holds.mono {Q : α → Nat → Prop} (hm : Holds E m i P) (h : ∀ a j, P a j → Q a j) : Holds E m i Q := by
  unfold Holds at hm ⊢
  split at hm
  · exact h _ _ hm
  all_goals exact hm

theorem Holds.bind (hm : Holds E m i P)
    (hf : ∀ a j, P a j → Holds E (f a) j Q) : Holds E (m >>= f) i Q := by
  unfold Holds at hm
  change Holds E (m.bind f) i Q
  unfold Holds Parser.bind
  cases h : m i with
  | ok a j => exact hf a j (by rwa [h] at hm)
  | panic e | overrun | fuel => rwa [h] at hm

theorem holds_bind_of_eq {j : Nat} {a : α} (hm : m i = .ok a j)
    (hf : Holds E (f a) j Q) : Holds E (m >>= f) i Q := by
  change Holds E (m.bind f) i Q
  unfold Holds Parser.bind
  rwa [hm]

end

variable {ts : List Tok} {t : Tok} {c : UInt8}

section

def Span (line : List UInt8) (q e : Nat) (w : Word) : Prop :=
  (line.drop q).takeWhile isWord = w ∧ e = q + w.length

def At (line : List UInt8) (i : Nat) (ts : List Tok) : Prop :=
  i ≤ line.length ∧ tokens (line.drop i) = ts

theorem drop_cons_of_lt (h : i < line.length) : line.drop i = char line i :: line.drop (i + 1) := by
  rw [drop_eq_getElem_cons h]
  simp [char, getD_eq_getElem?_getD, h]

theorem char_of_le (h : line.length ≤ i) : char line i = 0 := by
  simp [char, getD_eq_getElem?_getD, getElem?_eq_none h]

theorem char_mem (h : i < line.length) : char line i ∈ line := by
  have hmem : char line i ∈ line.drop i := by
    rw [drop_cons_of_lt h]
    exact mem_cons_self
  exact mem_of_mem_drop hmem

theorem skipFrom_eq (p : UInt8 → Bool) (n i : Nat) (h : i + n = line.length) :
    skipFrom line p n i = i + ((line.drop i).takeWhile p).length := by
  induction n generalizing i with
  | zero =>
    have hnil : line.drop i = [] := drop_eq_nil_of_le (by omega)
    simp [skipFrom, hnil]
  | succ n ih =>
    rw [drop_cons_of_lt (by omega), takeWhile_cons, skipFrom]
    split
    · rw [ih (i + 1) (by omega)]
      simp only [length_cons]
      omega
    · simp

theorem skip_eq (p : UInt8 → Bool) (h : i ≤ line.length) : skip line p i = i + ((line.drop i).takeWhile p).length :=
  skipFrom_eq p _ i (by omega)

theorem drop_length_takeWhile (p : UInt8 → Bool) (l : List UInt8) : l.drop (l.takeWhile p).length = l.dropWhile p := by
  have h := congrArg (List.drop (l.takeWhile p).length) (takeWhile_append_dropWhile (p := p) (l := l))
  rw [drop_left] at h
  exact h.symm

theorem drop_skip (p : UInt8 → Bool) (h : i ≤ line.length) : line.drop (skip line p i) = (line.drop i).dropWhile p := by
  rw [skip_eq p h, ← drop_drop, drop_length_takeWhile]

theorem skip_le (p : UInt8 → Bool) (h : i ≤ line.length) : skip line p i ≤ line.length := by
  rw [skip_eq p h]
  have := (takeWhile_sublist p (l := line.drop i)).length_le
  simp only [length_drop] at this
  omega

theorem tokens_dropWhile (text : List UInt8) : tokens (text.dropWhile isSpace) = tokens text := by
  induction text with
  | nil => simp
  | cons c cs ih =>
    rw [dropWhile_cons]
    split
    · rename_i hc
      rw [ih, tokens, if_pos hc]
    · rfl

theorem at_skip (h : At line i ts) : At line (skip line isSpace i) ts := by
  refine ⟨skip_le _ h.1, ?_⟩
  rw [drop_skip _ h.1, tokens_dropWhile, h.2]

-- The character that gettoken returns for a token.
def Tok.code : Tok → UInt8
  | .bar => '|'.toUInt8
  | .amp => '&'.toUInt8
  | .semi => ';'.toUInt8
  | .lparen => '('.toUInt8
  | .rparen => ')'.toUInt8
  | .lt => '<'.toUInt8
  | .gt => '>'.toUInt8
  | .gtgt => '+'.toUInt8
  | .word _ => 'a'.toUInt8

-- The character that peek compares with, which is no symbol for a word.
def Tok.first : Tok → UInt8
  | .gtgt => '>'.toUInt8
  | t => t.code

def starts (toks : List UInt8) (ts : List Tok) : Bool := ts.head?.any fun t => t.first ∈ toks

structure Scanned (line : List UInt8) (s : Nat) (t : Tok) (e : Nat) : Prop where
  scan : scan line s = (t.code, e)
  le : e ≤ line.length
  toks : tokens (line.drop s) = t :: tokens (line.drop e)
  peek : ∀ toks, toks ⊆ symbols → (char line s ∈ toks ↔ t.first ∈ toks)
  word : ∀ w, t = .word w → Span line s e w

theorem single_some (h : single c = some t) :
    c = t.code ∧ t.first = t.code ∧ c ∈ chars ['|', '(', ')', ';', '&', '<'] ∧ ∀ w, t ≠ .word w := by
  unfold single at h
  split_ifs at h with h1 h2 h3 h4 h5 h6
  all_goals
    subst_vars
    cases h
    refine ⟨rfl, rfl, by decide, fun w => by simp⟩

theorem single_none (h : single c = none) : c ∉ chars ['|', '(', ')', ';', '&', '<'] := by
  unfold single at h
  split_ifs at h
  simp_all [chars]

theorem scanned {s : Nat} (hs : s < line.length) (hsp : isSpace (char line s) = false) (h0 : char line s ≠ 0) :
    ∃ t e, Scanned line s t e := by
  have hdrop := drop_cons_of_lt hs
  have hspace : ¬ isSpace (char line s) = true := by simp [hsp]
  cases hsingle : single (char line s) with
  | some t =>
    obtain ⟨hcode, hfirst, hmem, hw⟩ := single_some hsingle
    refine ⟨t, s + 1, ?_, hs, ?_, ?_, fun w ht => absurd ht (hw w)⟩
    · simp only [scan, h0, hmem, if_false, if_true]
      rw [hcode]
    · rw [hdrop, tokens, if_neg hspace, hsingle]
    · intro toks _
      rw [hfirst, ← hcode]
  | none =>
    have hmem := single_none hsingle
    by_cases hgt : char line s = '>'.toUInt8
    · have hhead : (line.drop (s + 1)).head? = some '>'.toUInt8 ↔ char line (s + 1) = '>'.toUInt8 := by
        rcases Nat.lt_or_ge (s + 1) line.length with h | h
        · simp [drop_cons_of_lt h]
        · rw [drop_eq_nil_of_le h, char_of_le h]
          decide
      by_cases hgt2 : char line (s + 1) = '>'.toUInt8
      · have hlt : s + 1 < line.length := by
          by_contra hge
          rw [char_of_le (by omega)] at hgt2
          exact absurd hgt2 (by decide)
        refine ⟨.gtgt, s + 2, ?_, hlt, ?_, ?_, fun w ht => by cases ht⟩
        · simp only [scan, h0, hmem, if_false]
          rw [if_pos hgt, if_pos hgt2]
          rfl
        · rw [hdrop, tokens, if_neg hspace, hsingle]
          simp only [hgt, if_true, hhead.mpr hgt2, tail_drop]
        · intro toks _
          rw [hgt]
          rfl
      · refine ⟨.gt, s + 1, ?_, hs, ?_, ?_, fun w ht => by cases ht⟩
        · simp only [scan, h0, hmem, if_false]
          rw [if_pos hgt, if_neg hgt2, hgt]
          rfl
        · rw [hdrop, tokens, if_neg hspace, hsingle]
          simp only [hgt, if_true, if_neg (mt hhead.mp hgt2)]
        · intro toks _
          rw [hgt]
          rfl
    · have hsym : char line s ∉ symbols := by
        intro hc
        simp only [symbols, chars, map_cons, map_nil, mem_cons] at hc hmem
        tauto
      have hword : isWord (char line s) = true := by
        simp only [isSpace, decide_eq_false_iff_not] at hsp
        simp [isWord, hsp, hsym]
      have htake : (line.drop s).takeWhile isWord = char line s :: (line.drop (s + 1)).takeWhile isWord := by
        rw [hdrop, takeWhile_cons, if_pos hword]
      have hend : skip line isWord s = s + (char line s :: (line.drop (s + 1)).takeWhile isWord).length := by
        rw [skip_eq _ hs.le, htake]
      refine ⟨.word (char line s :: (line.drop (s + 1)).takeWhile isWord), skip line isWord s, ?_,
        skip_le _ hs.le, ?_, ?_, ?_⟩
      · simp only [scan, h0, hmem, hgt, if_false]
        rfl
      · rw [drop_skip _ hs.le, hdrop, tokens, if_neg hspace, hsingle]
        simp only [hgt, if_false]
        rw [dropWhile_cons, if_pos hword]
      · intro toks hsub
        exact iff_of_false (fun h => hsym (hsub h)) (fun h => absurd (hsub h) (show 'a'.toUInt8 ∉ symbols by decide))
      · intro w hw
        cases hw
        exact ⟨htake, hend⟩

theorem skip_stops (h : i ≤ line.length) (hlt : skip line isSpace i < line.length) :
    isSpace (char line (skip line isSpace i)) = false := by
  have hdrop := drop_skip isSpace h
  rw [drop_cons_of_lt hlt] at hdrop
  have hhead := head_dropWhile_not isSpace (l := line.drop i) (by simp [← hdrop])
  simpa [← hdrop] using hhead

theorem at_head (hline : 0 ∉ line) (h : At line i ts) : (skip line isSpace i = line.length ∧ ts = []) ∨
      ∃ t e rest, Scanned line (skip line isSpace i) t e ∧ ts = t :: rest ∧ At line e rest ∧
        char line (skip line isSpace i) ≠ 0 := by
  have hs := at_skip h
  rcases Nat.lt_or_ge (skip line isSpace i) line.length with hlt | hge
  · have hne : char line (skip line isSpace i) ≠ 0 := by
      intro h0
      apply hline
      rw [← h0]
      exact char_mem hlt
    obtain ⟨t, e, hscan⟩ := scanned hlt (skip_stops h.1 hlt) hne
    exact .inr ⟨t, e, _, hscan, hs.2.symm.trans hscan.toks, ⟨hscan.le, rfl⟩, hne⟩
  · refine .inl ⟨Nat.le_antisymm hs.1 hge, ?_⟩
    rw [← hs.2, drop_eq_nil_of_le hge, tokens]

variable {β : Type} {Q : β → Nat → Prop}

variable (hline : 0 ∉ line)

include hline

theorem at_peek (h : At line i ts)
    (hsub : toks ⊆ symbols) : ∃ j, peek line toks i = .ok (starts toks ts) j ∧ At line j ts := by
  refine ⟨_, ?_, at_skip h⟩
  unfold peek
  obtain ⟨hs, rfl⟩ | ⟨t, e, rest, hscan, rfl, -, hne⟩ := at_head hline h
  · simp [hs, char_of_le, starts]
  · simp [hne, hscan.peek toks hsub, starts]

theorem at_gettoken_nil (h : At line i []) :
    ∃ q e j, gettoken line i = .ok (0, q, e) j ∧ At line j [] := by
  obtain ⟨hs, -⟩ | ⟨t, e, rest, -, habs, -⟩ := at_head hline h
  · have hscan : scan line (skip line isSpace i) = (0, skip line isSpace i) := by
      simp [scan, hs, char_of_le]
    refine ⟨skip line isSpace i, skip line isSpace i, _, ?_, at_skip (at_skip h)⟩
    simp only [gettoken, hscan]
  · cases habs

theorem at_gettoken (h : At line i (t :: ts)) :
    ∃ q e j, gettoken line i = .ok (t.code, q, e) j ∧ At line j ts ∧ ∀ w, t = .word w → Span line q e w := by
  obtain ⟨-, habs⟩ | ⟨t', e, rest, hscan, heq, hrest, -⟩ := at_head hline h
  · cases habs
  · cases heq
    refine ⟨_, e, _, ?_, at_skip hrest, hscan.word⟩
    simp only [gettoken, hscan.scan]

theorem holds_peek {f : Bool → Parser β} (h : At line i ts)
    (hsub : toks ⊆ symbols) (hf : ∀ j, At line j ts → Holds E (f (starts toks ts)) j Q) :
    Holds E (peek line toks >>= f) i Q := by
  obtain ⟨j, hpeek, hj⟩ := at_peek hline h hsub
  exact holds_bind_of_eq hpeek (hf j hj)

theorem holds_gettoken {f : UInt8 × Nat × Nat → Parser β} (h : At line i (t :: ts))
    (hf : ∀ q e j, At line j ts → (∀ w, t = .word w → Span line q e w) → Holds E (f (t.code, q, e)) j Q) :
    Holds E (gettoken line >>= f) i Q := by
  obtain ⟨q, e, j, hget, hj, hw⟩ := at_gettoken hline h
  exact holds_bind_of_eq hget (hf q e j hj hw)

end

def Points (R : Nat → Nat → Word → Prop) : Option Nat → Option Nat → Option Word → Prop
  | some q, some e, some w => R q e w
  | none, none, none => True
  | _, _, _ => False

def Mode.flags : Mode → UInt32
  | .read => Fs.O_RDONLY
  | .write => Fs.O_WRONLY ||| Fs.O_CREATE ||| Fs.O_TRUNC
  | .append => Fs.O_WRONLY ||| Fs.O_CREATE

def Mode.fd : Mode → Nat
  | .read => 0
  | _ => 1

structure ShowsExec (R : Nat → Nat → Word → Prop) (cmd : Exec) (ws : List Word) : Prop where
  short : ws.length < MAXARGS
  args : ∀ i : Fin MAXARGS, Points R (cmd.argv i) (cmd.eargv i) ws[i.val]?

structure ShowsRedir (R : Nat → Nat → Word → Prop) (r : Redir) (x : Redirect) : Prop where
  file : R r.file r.efile x.file
  mode : r.mode = x.mode.flags
  fd : r.fd = x.mode.fd

-- The structure that the parser builds stands for a command of the grammar.
inductive Shows (R : Nat → Nat → Word → Prop) : Cmd → Tree → Prop where
  | exec {cmd : Exec} {ws : List Word} (h : ShowsExec R cmd ws) : Shows R (.exec cmd) (.exec ws)
  | redir {cmd : Cmd} {t : Tree} {r : Redir} {x : Redirect} (h : Shows R cmd t) (hr : ShowsRedir R r x) :
    Shows R (.redir cmd r) (.redir t x)
  | pipe {left right : Cmd} {l r : Tree} (hl : Shows R left l) (hr : Shows R right r) :
    Shows R (.pipe left right) (.pipe l r)
  | list {left right : Cmd} {l r : Tree} (hl : Shows R left l) (hr : Shows R right r) :
    Shows R (.list left right) (.list l r)
  | back {cmd : Cmd} {t : Tree} (h : Shows R cmd t) : Shows R (.back cmd) (.back t)

variable {R R' : Nat → Nat → Word → Prop}

theorem Points.mono (hR : ∀ q e w, R q e w → R' q e w) {q e : Option Nat} {w : Option Word}
    (h : Points R q e w) : Points R' q e w := by
  unfold Points at h ⊢
  split
  · exact hR _ _ _ h
  · trivial
  · split at h <;> simp_all

theorem Shows.mono (hR : ∀ q e w, R q e w → R' q e w) {c : Cmd} {t : Tree} (h : Shows R c t) : Shows R' c t := by
  induction h with
  | exec h => exact .exec ⟨h.short, fun i => (h.args i).mono hR⟩
  | redir _ hr ih => exact .redir ih ⟨hR _ _ _ hr.file, hr.mode, hr.fd⟩
  | pipe _ _ ihl ihr => exact .pipe ihl ihr
  | list _ _ ihl ihr => exact .list ihl ihr
  | back _ ih => exact .back ih

theorem shows_wrap {rs : List Redir} {xs : List Redirect} {c : Cmd} {t : Tree} (h : Shows R c t)
    (hrs : List.Forall₂ (ShowsRedir R) rs xs) : Shows R (wrap rs c) (redirected t xs) := by
  induction hrs generalizing c t with
  | nil => exact h
  | cons hr _ ih => exact ih (.redir h hr)

theorem execcmd_shows (R : Nat → Nat → Word → Prop) : ShowsExec R execcmd [] :=
  ⟨by decide, fun _ => trivial⟩

variable {f : Exec → Parser β} {cmd : Exec} {ws : List Word}

theorem holds_set {q e : Nat} {w : Word} (h : ShowsExec R cmd ws) (hw : R q e w)
    (hf : ∀ cmd', (ws.length + 1 < MAXARGS → ShowsExec R cmd' (ws ++ [w])) → Holds E (f cmd') i Q) :
    Holds E (cmd.set ws.length (some q) (some e) >>= f) i Q := by
  rw [Exec.set, dif_pos h.short]
  apply hf
  intro hlt
  refine ⟨by simpa using hlt, fun k => ?_⟩
  by_cases hk : k.val = ws.length
  · have hk' : k = ⟨ws.length, h.short⟩ := Fin.ext hk
    subst hk'
    simpa [Points] using hw
  have hne : k ≠ ⟨ws.length, h.short⟩ := fun heq => hk (congrArg Fin.val heq)
  have hget : (ws ++ [w])[k.val]? = ws[k.val]? := by
    rw [getElem?_append]
    split
    · rfl
    · rw [getElem?_eq_none (by simp; omega), getElem?_eq_none (by omega)]
  simp only [update_of_ne hne, hget]
  exact h.args k

theorem holds_unset (h : ShowsExec R cmd ws)
    (hf : ∀ cmd', ShowsExec R cmd' ws → Holds E (f cmd') i Q) :
    Holds E (cmd.set ws.length none none >>= f) i Q := by
  rw [Exec.set, dif_pos h.short]
  apply hf
  refine ⟨h.short, fun k => ?_⟩
  by_cases hk : k = ⟨ws.length, h.short⟩
  · subst hk
    simp [Points]
  · simp only [update_of_ne hk]
    exact h.args k

section

theorem code_word (h : t.code = 'a'.toUInt8) : ∃ w, t = .word w := by
  cases t
  case word w => exact ⟨w, rfl⟩
  all_goals exact absurd h (by decide)

theorem code_ne_zero (t : Tok) : t.code ≠ 0 := by
  cases t
  case word w => exact (by decide : 'a'.toUInt8 ≠ 0)
  all_goals decide

theorem first_redir (h : t.first ∈ chars ['<', '>']) : ∃ m : Mode, t = m.tok := by
  cases t
  case lt => exact ⟨.read, rfl⟩
  case gt => exact ⟨.write, rfl⟩
  case gtgt => exact ⟨.append, rfl⟩
  case word w => exact absurd h (by decide : 'a'.toUInt8 ∉ chars ['<', '>'])
  all_goals exact absurd h (by decide)

theorem redircmd_shows (m : Mode) {q e : Nat} {w : Word} (h : R q e w) :
    ShowsRedir R (redircmd m.tok.code q e) ⟨m, w⟩ := by
  cases m <;> exact ⟨h, rfl, rfl⟩

theorem starts_cons (h : starts toks ts = true) : ∃ t rest, ts = t :: rest ∧ t.first ∈ toks := by
  cases ts with
  | nil => cases h
  | cons t rest => exact ⟨t, rest, rfl, by simpa [starts] using h⟩

theorem starts_of_first (h : t.first ∈ toks) : starts toks (t :: ts) = true := by
  simpa [starts] using h

theorem starts_symbol (h : starts [c] ts = true)
    (hc : ∀ u : Tok, u.first = c → u = t) : ∃ rest, ts = t :: rest := by
  obtain ⟨u, rest, rfl, hu⟩ := starts_cons h
  exact ⟨rest, by rw [hc u (by simpa using hu)]⟩

theorem first_inj (ht : t = .bar ∨ t = .amp ∨ t = .semi ∨ t = .lparen ∨ t = .rparen) (u : Tok)
    (h : u.first = t.first) : u = t := by
  cases u
  case word w =>
      have hword : 'a'.toUInt8 = t.first := h
      rcases ht with rfl | rfl | rfl | rfl | rfl
      all_goals exact absurd hword (by decide)
  all_goals
    rcases ht with rfl | rfl | rfl | rfl | rfl
    all_goals first | rfl | exact absurd h (by decide)

theorem starts_false (ht : t = .bar ∨ t = .amp ∨ t = .semi ∨ t = .lparen ∨ t = .rparen) (h : ∀ us, ts ≠ t :: us) :
    ¬ starts [t.first] ts = true := by
  intro hstart
  obtain ⟨rest, hrest⟩ := starts_symbol hstart (first_inj ht)
  exact h rest hrest

section

variable (hline : 0 ∉ line) (ht : t = .bar ∨ t = .amp ∨ t = .semi ∨ t = .lparen ∨ t = .rparen)
  {f : UInt8 × Nat × Nat → Parser β} {m : Parser β}

include hline ht

-- if (peek(ps, es, "t")) gettoken(ps, es, 0, 0)
theorem holds_take (h : At line i (t :: ts)) (hf : ∀ x j, At line j ts → Holds E (f x) j Q) :
    Holds E (peek line [t.first] >>= fun b => if b then gettoken line >>= f else m) i Q := by
  apply holds_peek hline h (by rcases ht with rfl | rfl | rfl | rfl | rfl <;> decide)
  intro j hj
  rw [if_pos (starts_of_first (by simp))]
  apply holds_gettoken hline hj
  intro q e k hk _
  exact hf _ k hk

theorem holds_leave (h : At line i ts) (hne : ∀ us, ts ≠ t :: us) {n : Parser β} (hm : ∀ j, At line j ts → Holds E m j Q) :
    Holds E (peek line [t.first] >>= fun b => if b then n else m) i Q := by
  apply holds_peek hline h (by rcases ht with rfl | rfl | rfl | rfl | rfl <;> decide)
  intro j hj
  rw [if_neg (starts_false ht hne)]
  exact hm j hj

end

-- The panics for a line with a syntax error; the one left is for an error of the parser.
def SyntaxError (e : Panic) : Prop := e ≠ .parseblock

instance (e : Panic) : Decidable (SyntaxError e) := inferInstanceAs (Decidable (e ≠ .parseblock))

theorem redirs_sound (hline : 0 ∉ line) (n : Nat) : ∀ (i : Nat) (ts : List Tok) (rs : List Redir),
    At line i ts → ts.length + 1 ≤ n → Holds SyntaxError (parseredirs line n rs) i fun rs' j => ∃ qs xs rest,
        rs' = rs ++ qs ∧ List.Forall₂ (ShowsRedir (Span line)) qs xs ∧ ts = redirToks xs ++ rest ∧ At line j rest := by
  induction n with
  | zero => intro i ts rs _ hn; omega
  | succ n ih =>
    intro i ts rs hi hn
    rw [parseredirs]
    apply holds_peek hline hi (by decide)
    intro j hj
    split
    · rename_i hstart
      obtain ⟨t, rest, rfl, ht⟩ := starts_cons hstart
      obtain ⟨m, rfl⟩ := first_redir ht
      apply holds_gettoken hline hj
      intro _ _ j hj _
      cases rest with
      | nil =>
        obtain ⟨q, e, j', hget, -⟩ := at_gettoken_nil hline hj
        apply holds_bind_of_eq hget
        apply holds_panic
        decide
      | cons t rest =>
        apply holds_gettoken hline hj
        intro q e k hk hspan
        dsimp only
        split
        · exact holds_panic (by decide)
        rename_i hcode
        obtain ⟨w, rfl⟩ := code_word (not_not.mp hcode)
        simp only [length_cons] at hn
        apply (ih k rest (rs ++ [redircmd m.tok.code q e]) hk (by omega)).mono
        rintro rs' l ⟨qs, xs, rest', rfl, hqs, rfl, hl⟩
        have hshow := redircmd_shows m (hspan w rfl)
        exact ⟨redircmd m.tok.code q e :: qs, ⟨m, w⟩ :: xs, rest', by simp, .cons hshow hqs, by simp, hl⟩
    · exact ⟨[], [], ts, by simp, .nil, by simp, hj⟩

theorem args_sound (hline : 0 ∉ line) (n : Nat) : ∀ (i : Nat) (ts : List Tok) (cmd : Exec) (ws : List Word)
    (rs : List Redir), At line i ts → ts.length + 2 ≤ n → ShowsExec (Span line) cmd ws →
      Holds SyntaxError (parseargs line n ws.length cmd rs) i fun out j => ∃ args qs rest,
        out.1 = (ws ++ args.map Arg.word).length ∧ ShowsExec (Span line) out.2.1 (ws ++ args.map Arg.word) ∧
          out.2.2 = rs ++ qs ∧ List.Forall₂ (ShowsRedir (Span line)) qs (args.flatMap Arg.redirs) ∧
            ts = argToks args ++ rest ∧ At line j rest := by
  induction n with
  | zero => intro i ts cmd ws rs _ hn; omega
  | succ n ih =>
    intro i ts cmd ws rs hi hn hcmd
    rw [parseargs]
    apply holds_peek hline hi (by decide)
    intro j hj
    have hdone : ∀ k, At line k ts → ∃ args qs rest,
        ws.length = (ws ++ args.map Arg.word).length ∧ ShowsExec (Span line) cmd (ws ++ args.map Arg.word) ∧
          rs = rs ++ qs ∧ List.Forall₂ (ShowsRedir (Span line)) qs (args.flatMap Arg.redirs) ∧
            ts = argToks args ++ rest ∧ At line k rest :=
      fun k hk => ⟨[], [], ts, by simp, by simpa using hcmd, by simp, .nil, by simp, hk⟩
    split
    · exact hdone j hj
    cases ts with
    | nil =>
      obtain ⟨q, e, k, hget, hk⟩ := at_gettoken_nil hline hj
      apply holds_bind_of_eq hget
      exact hdone k hk
    | cons t ts =>
      apply holds_gettoken hline hj
      intro q e k hk hspan
      dsimp only
      rw [if_neg (code_ne_zero t)]
      split
      · exact holds_panic (by decide)
      rename_i hcode
      obtain ⟨w, rfl⟩ := code_word (not_not.mp hcode)
      apply holds_set hcmd (hspan w rfl)
      intro cmd' hcmd'
      split
      · exact holds_panic (by decide)
      rename_i hlt
      simp only [length_cons] at hn
      apply (redirs_sound hline n k ts rs hk (by omega)).bind
      rintro rs' l ⟨qs, xs, rest, rfl, hqs, rfl, hl⟩
      have hws : ws.length + 1 = (ws ++ [w]).length := by simp
      rw [hws]
      simp only [length_append] at hn
      apply (ih l rest cmd' (ws ++ [w]) (rs ++ qs) hl (by omega) (hcmd' (by omega))).mono
      rintro out p ⟨args, qs', rest', hlen, hexec, hrs, hqs', rfl, hp⟩
      refine ⟨⟨w, xs⟩ :: args, qs ++ qs', rest', ?_, ?_, ?_, ?_, ?_, hp⟩
      · simpa using hlen
      · simpa using hexec
      · simpa using hrs
      · simpa using rel_append hqs hqs'
      · simp

-- The functions of the parser by the symbol they read, and the fuel for a number of tokens.
def parse (line : List UInt8) : Sym → Nat → Parser Cmd
  | .exec => parseexec line
  | .pipe => parsepipe line
  | .line => parseline line

def Sym.need : Sym → Nat → Nat
  | .exec, k => 4 * k + 3
  | .pipe, k => 4 * k + 4
  | .line, k => 4 * k + 5

def Parsed (line : List UInt8) (s : Sym) (ts : List Tok) (c : Cmd) (j : Nat) : Prop :=
  ∃ (d : Deriv s) (rest : List Tok), ts = d.toks ++ rest ∧ At line j rest ∧ Shows (Span line) c d.tree

def SoundBelow (line : List UInt8) (n : Nat) : Prop :=
  ∀ m < n, ∀ s i ts, At line i ts → s.need ts.length ≤ m → Holds SyntaxError (parse line s m) i (Parsed line s ts)

theorem backs_sound (hline : 0 ∉ line) (n : Nat) : ∀ (i : Nat) (ts : List Tok) (c : Cmd) (t : Tree),
    At line i ts → ts.length + 1 ≤ n → Shows (Span line) c t →
      Holds SyntaxError (parsebacks line n c) i fun c' j => ∃ k rest,
        ts = List.replicate k .amp ++ rest ∧ At line j rest ∧ Shows (Span line) c' (backs k t) := by
  induction n with
  | zero => intro i ts c t _ hn; omega
  | succ n ih =>
    intro i ts c t hi hn hc
    rw [parsebacks]
    by_cases hamp : ∃ us, ts = .amp :: us
    · obtain ⟨rest, rfl⟩ := hamp
      apply holds_take hline (by simp) hi
      intro _ j hj
      simp only [length_cons] at hn
      apply (ih j rest (.back c) (.back t) hj (by omega) (.back hc)).mono
      rintro c' k ⟨m, rest', rfl, hk, hshow⟩
      exact ⟨m + 1, rest', by simp [replicate_succ], hk, hshow⟩
    · exact holds_leave hline (by simp) hi (not_exists.mp hamp) fun j hj => ⟨0, ts, by simp, hj, hc⟩

variable {n : Nat}

section

variable (hline : 0 ∉ line) (ih : SoundBelow line n)

include hline ih

theorem block_sound (hi : At line i (.lparen :: ts)) (hn : 4 * (ts.length + 1) + 2 ≤ n) :
    Holds SyntaxError (parseblock line n) i (Parsed line .exec (.lparen :: ts)) := by
  obtain _ | n := n
  · omega
  rw [parseblock]
  apply holds_take hline (t := .lparen) (by simp) hi
  intro _ j hj
  apply (ih n (by omega) .line j ts hj (by simp only [Sym.need]; omega)).bind
  rintro c k ⟨d, rest, rfl, hk, hshow⟩
  by_cases hparen : ∃ us, rest = .rparen :: us
  · obtain ⟨rest, rfl⟩ := hparen
    apply holds_take hline (by simp) hk
    intro _ k hk
    simp only [length_append, length_cons] at hn
    apply (redirs_sound hline n k rest [] hk (by omega)).bind
    rintro rs l ⟨qs, xs, rest, rfl, hqs, rfl, hl⟩
    exact ⟨.block d xs, rest, by simp, hl, shows_wrap hshow (by simpa using hqs)⟩
  · exact holds_leave hline (by simp) hk (not_exists.mp hparen) fun _ _ => holds_panic (by decide)

theorem exec_sound (hi : At line i ts) (hn : Sym.need .exec ts.length ≤ n) :
    Holds SyntaxError (parseexec line n) i (Parsed line .exec ts) := by
  simp only [Sym.need] at hn
  obtain _ | n := n
  · omega
  rw [parseexec]
  apply holds_peek hline hi (by decide)
  intro j hj
  split
  · rename_i hstart
    obtain ⟨rest, rfl⟩ := starts_symbol hstart (first_inj (t := .lparen) (by simp))
    simp only [length_cons] at hn
    exact block_sound hline (fun m hm => ih m (by omega)) hj (by omega)
  apply (redirs_sound hline n j ts [] hj (by omega)).bind
  rintro rs k ⟨qs, xs, rest, hrs, hqs, rfl, hk⟩
  rw [nil_append] at hrs
  subst hrs
  simp only [length_append] at hn
  apply (args_sound hline n k rest execcmd [] rs hk (by omega) (execcmd_shows _)).bind
  rintro ⟨argc, cmd, rs⟩ l ⟨args, qs', rest', hlen, hexec, hrs, hqs', rfl, hl⟩
  simp only [nil_append] at hlen hexec hrs
  subst hlen hrs
  apply holds_unset hexec
  intro cmd' hexec'
  have hshort := hexec.short
  simp only [length_map] at hshort
  refine ⟨.words xs args (by omega), rest', by simp, hl, ?_⟩
  exact shows_wrap (.exec hexec') (rel_append hqs hqs')

theorem pipe_sound (hi : At line i ts) (hn : Sym.need .pipe ts.length ≤ n) :
    Holds SyntaxError (parsepipe line n) i (Parsed line .pipe ts) := by
  simp only [Sym.need] at hn
  obtain _ | n := n
  · omega
  rw [parsepipe]
  apply (ih n (by omega) .exec i ts hi (by simp only [Sym.need]; omega)).bind
  rintro c j ⟨e, rest, rfl, hj, hshow⟩
  by_cases hbar : ∃ us, rest = .bar :: us
  · obtain ⟨rest, rfl⟩ := hbar
    apply holds_take hline (by simp) hj
    intro _ j hj
    simp only [length_append, length_cons] at hn
    apply (ih n (by omega) .pipe j rest hj (by simp only [Sym.need]; omega)).bind
    rintro c' k ⟨p, rest, rfl, hk, hshow'⟩
    exact ⟨.pipe e p, rest, by simp, hk, .pipe hshow hshow'⟩
  · exact holds_leave hline (by simp) hj (not_exists.mp hbar) fun j hj => ⟨.exec e, rest, rfl, hj, hshow⟩

theorem line_sound (hi : At line i ts) (hn : Sym.need .line ts.length ≤ n) :
    Holds SyntaxError (parseline line n) i (Parsed line .line ts) := by
  simp only [Sym.need] at hn
  obtain _ | n := n
  · omega
  rw [parseline]
  apply (ih n (by omega) .pipe i ts hi (by simp only [Sym.need]; omega)).bind
  rintro c j ⟨p, rest, rfl, hj, hshow⟩
  simp only [length_append] at hn
  apply (backs_sound hline n j rest c p.tree hj (by omega) hshow).bind
  rintro c j ⟨amps, rest, rfl, hj, hshow⟩
  by_cases hsemi : ∃ us, rest = .semi :: us
  · obtain ⟨rest, rfl⟩ := hsemi
    apply holds_take hline (by simp) hj
    intro _ j hj
    simp only [length_append, length_cons] at hn
    apply (ih n (by omega) .line j rest hj (by simp only [Sym.need]; omega)).bind
    rintro c' k ⟨l, rest, rfl, hk, hshow'⟩
    exact ⟨.list p amps l, rest, by simp, hk, .list hshow hshow'⟩
  · refine holds_leave hline (by simp) hj (not_exists.mp hsemi) fun j hj => ?_
    exact ⟨.line p amps, rest, by simp, hj, hshow⟩

end

theorem parse_sound (hline : 0 ∉ line) (n : Nat) : SoundBelow line n := by
  induction n with
  | zero => intro m hm; omega
  | succ n ih =>
    intro m hm s i ts hi hn
    have ih' : SoundBelow line m := fun k hk => ih k (by omega)
    cases s with
    | exec => exact exec_sound hline ih' hi hn
    | pipe => exact pipe_sound hline ih' hi hn
    | line => exact line_sound hline ih' hi hn

def NoPanic (_ : Panic) : Prop := False

theorem starts_noRedir (h : NoRedir ts) : ¬ starts (chars ['<', '>']) ts = true := by
  intro hstart
  obtain ⟨t, rest, rfl, ht⟩ := starts_cons hstart
  obtain ⟨m, rfl⟩ := first_redir ht
  exact h m rest rfl

theorem redirs_complete (hline : 0 ∉ line) (xs : List Redirect) : ∀ (n i : Nat) (rest : List Tok) (rs : List Redir),
    NoRedir rest → At line i (redirToks xs ++ rest) → (redirToks xs).length + 1 ≤ n →
      Holds NoPanic (parseredirs line n rs) i fun _ j => At line j rest := by
  induction xs with
  | nil =>
    intro n i rest rs hrest hi hn
    obtain _ | n := n
    · omega
    rw [redirToks_nil, nil_append] at hi
    rw [parseredirs]
    apply holds_peek hline hi (by decide)
    intro j hj
    rw [if_neg (starts_noRedir hrest)]
    exact hj
  | cons x xs ih =>
    intro n i rest rs hrest hi hn
    obtain _ | n := n
    · omega
    rw [parseredirs]
    apply holds_peek hline hi (by decide)
    intro j hj
    have hfirst : x.mode.tok.first ∈ chars ['<', '>'] := by cases x.mode <;> decide
    rw [redirToks_cons, cons_append, if_pos (starts_of_first hfirst)]
    apply holds_gettoken hline hj
    intro _ _ k hk _
    apply holds_gettoken hline hk
    intro q e l hl _
    simp only [redirToks_cons, length_cons] at hn
    exact ih n l rest _ hrest hl (by omega)

theorem holds_set_lt {argc : Nat} {q e : Option Nat} (h : argc < MAXARGS) (hf : ∀ cmd', Holds E (f cmd') i Q) :
    Holds E (cmd.set argc q e >>= f) i Q := by
  rw [Exec.set, dif_pos h]
  exact hf _

theorem follow_starts (h : Follow .exec ts) (hne : ts ≠ []) : starts (chars ['|', ')', '&', ';']) ts = true := by
  cases ts with
  | nil => exact absurd rfl hne
  | cons t ts =>
    rw [follow_cons] at h
    simp only [Sym.follow, mem_cons, not_mem_nil, or_false] at h
    rcases h with rfl | rfl | rfl | rfl
    all_goals exact starts_of_first (by decide)

theorem args_complete (hline : 0 ∉ line) (args : List Arg) : ∀ (n i : Nat) (rest : List Tok) (argc : Nat) (cmd : Exec)
    (rs : List Redir), Follow .exec rest → At line i (argToks args ++ rest) → (argToks args).length + 2 ≤ n →
      argc + args.length < MAXARGS →
        Holds NoPanic (parseargs line n argc cmd rs) i fun out j => out.1 < MAXARGS ∧ At line j rest := by
  induction args with
  | nil =>
    intro n i rest argc cmd rs hrest hi hn hargc
    obtain _ | n := n
    · omega
    rw [argToks_nil, nil_append] at hi
    rw [parseargs]
    apply holds_peek hline hi (by decide)
    intro j hj
    split
    · exact ⟨hargc, hj⟩
    rename_i hstart
    have hnil : rest = [] := by
      by_contra hne
      exact hstart (follow_starts hrest hne)
    subst hnil
    obtain ⟨q, e, k, hget, hk⟩ := at_gettoken_nil hline hj
    apply holds_bind_of_eq hget
    exact ⟨hargc, hk⟩
  | cons a args ih =>
    intro n i rest argc cmd rs hrest hi hn hargc
    obtain _ | n := n
    · omega
    simp only [argToks_cons, cons_append, append_assoc] at hi
    simp only [argToks_cons, length_cons, length_append] at hn hargc
    rw [parseargs]
    apply holds_peek hline hi (by decide)
    intro j hj
    have hword : ¬ starts (chars ['|', ')', '&', ';']) (.word a.word :: (redirToks a.redirs ++ (argToks args ++ rest))) = true := by
      simp only [starts, head?_cons, Option.any_some, decide_eq_true_eq]
      exact (by decide : 'a'.toUInt8 ∉ chars ['|', ')', '&', ';'])
    rw [if_neg hword]
    apply holds_gettoken hline hj
    intro q e k hk _
    dsimp only
    have hcode : ¬ (Tok.word a.word).code ≠ 'a'.toUInt8 := fun h => h rfl
    rw [if_neg (code_ne_zero _), if_neg hcode]
    apply holds_set_lt (by omega)
    intro cmd'
    rw [if_neg (by omega)]
    apply (redirs_complete hline a.redirs n k _ rs (argToks_noRedir args hrest) hk (by omega)).bind
    intro rs' l hl
    exact ih n l rest (argc + 1) cmd' rs' hrest hl (by omega) (by omega)

theorem backs_complete (hline : 0 ∉ line) (amps : Nat) : ∀ (n i : Nat) (rest : List Tok) (c : Cmd),
    rest.head? ≠ some .amp → At line i (List.replicate amps .amp ++ rest) → amps + 1 ≤ n →
      Holds NoPanic (parsebacks line n c) i fun _ j => At line j rest := by
  induction amps with
  | zero =>
    intro n i rest c hrest hi hn
    obtain _ | n := n
    · omega
    rw [parsebacks]
    rw [replicate_zero, nil_append] at hi
    exact holds_leave hline (t := .amp) (by simp) hi (fun us heq => hrest (by simp [heq])) fun j hj => hj
  | succ amps ih =>
    intro n i rest c hrest hi hn
    obtain _ | n := n
    · omega
    rw [parsebacks]
    rw [replicate_succ, cons_append] at hi
    apply holds_take hline (by simp) hi
    intro _ k hk
    exact ih n k rest _ hrest hk (by omega)

theorem parse_complete (hline : 0 ∉ line) {s : Sym} (d : Deriv s) : ∀ (n i : Nat) (rest : List Tok),
    Follow s rest → At line i (d.toks ++ rest) → s.need d.toks.length ≤ n →
      Holds NoPanic (parse line s n) i fun _ j => At line j rest := by
  induction d with
  | block l rs ih =>
    intro n i rest hrest hi hn
    simp only [Sym.need, Deriv.toks, length_cons, length_append, cons_append, append_assoc] at hn hi
    obtain ⟨n, rfl⟩ : ∃ m, n = m + 2 := ⟨n - 2, by omega⟩
    change Holds _ (parseexec line (n + 2)) i _
    rw [parseexec]
    apply holds_peek hline hi (by decide)
    intro j hj
    rw [if_pos (starts_of_first (by decide)), parseblock]
    apply holds_take hline (by simp) hj
    intro _ k hk
    apply (ih n k _ (follow_line_rparen _) hk (by simp only [Sym.need]; omega)).bind
    intro c l hl
    apply holds_take hline (by simp) hl
    intro _ m hm
    apply (redirs_complete hline rs n m rest [] hrest.noRedir hm (by omega)).bind
    intro rs' m hm
    exact hm
  | words rs args short =>
    intro n i rest hrest hi hn
    simp only [Sym.need, Deriv.toks, length_append] at hn
    obtain _ | n := n
    · omega
    change Holds _ (parseexec line (n + 1)) i _
    rw [parseexec]
    apply holds_peek hline hi (by decide)
    intro j hj
    have hnot : ¬ starts (chars ['(']) (redirToks rs ++ argToks args ++ rest) = true :=
      starts_false (t := .lparen) (by simp) fun us => words_ne_lparen rs args hrest
    rw [Deriv.toks] at hj ⊢
    rw [if_neg hnot]
    rw [append_assoc] at hj
    apply (redirs_complete hline rs n j _ [] (argToks_noRedir args hrest) hj (by omega)).bind
    intro rs' k hk
    apply (args_complete hline args n k rest 0 execcmd rs' hrest hk (by omega) (by simp only [MAXARGS] at short ⊢; omega)).bind
    rintro ⟨argc, cmd, rs''⟩ l ⟨hargc, hl⟩
    apply holds_set_lt hargc
    intro cmd'
    exact hl
  | exec e ih =>
    intro n i rest hrest hi hn
    simp only [Sym.need, Deriv.toks] at hn
    obtain _ | n := n
    · omega
    change Holds _ (parsepipe line (n + 1)) i _
    rw [parsepipe]
    apply (ih n i rest hrest.exec hi (by simp only [Sym.need]; omega)).bind
    intro c j hj
    exact holds_leave hline (t := .bar) (by simp) hj (fun us => hrest.not_bar) fun j hj => hj
  | pipe e p ihe ihp =>
    intro n i rest hrest hi hn
    simp only [Sym.need, Deriv.toks, length_cons, length_append, cons_append, append_assoc] at hn hi
    obtain _ | n := n
    · omega
    change Holds _ (parsepipe line (n + 1)) i _
    rw [parsepipe]
    apply (ihe n i _ (follow_exec_bar _) hi (by simp only [Sym.need]; omega)).bind
    intro c j hj
    apply holds_take hline (by simp) hj
    intro _ k hk
    apply (ihp n k rest hrest hk (by simp only [Sym.need]; omega)).bind
    intro c' l hl
    exact hl
  | line p amps ih =>
    intro n i rest hrest hi hn
    simp only [Sym.need, Deriv.toks, length_append, length_replicate, append_assoc] at hn hi
    obtain _ | n := n
    · omega
    change Holds _ (parseline line (n + 1)) i _
    rw [parseline]
    apply (ih n i _ (hrest.pipe.amps amps) hi (by simp only [Sym.need]; omega)).bind
    intro c j hj
    apply (backs_complete hline amps n j rest c hrest.not_amp hj (by omega)).bind
    intro c j hj
    exact holds_leave hline (t := .semi) (by simp) hj (fun us => hrest.not_semi) fun j hj => hj
  | list p amps l ihp ihl =>
    intro n i rest hrest hi hn
    simp only [Sym.need, Deriv.toks, length_append, length_cons, length_replicate, append_assoc,
      cons_append] at hn hi
    obtain _ | n := n
    · omega
    change Holds _ (parseline line (n + 1)) i _
    rw [parseline]
    apply (ihp n i _ ((follow_pipe_semi _).amps amps) hi (by simp only [Sym.need]; omega)).bind
    intro c j hj
    apply (backs_complete hline amps n j _ c (by simp) hj (by omega)).bind
    intro c j hj
    apply holds_take hline (by simp) hj
    intro _ k hk
    apply (ihl n k rest hrest hk (by simp only [Sym.need]; omega)).bind
    intro c' m hm
    exact hm

end

end Sh
