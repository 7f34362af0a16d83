import Xv6.Sh

-- The language of the shell: tokens, derivations and the commands they stand for.

namespace Sh

open List

abbrev Word := List UInt8

inductive Tok where
  | bar
  | amp
  | semi
  | lparen
  | rparen
  | lt
  | gt
  | gtgt
  | word (w : Word)
  deriving DecidableEq, Repr

-- The symbols that are tokens by themselves, whatever follows them.
def single (c : UInt8) : Option Tok :=
  if c = '|'.toUInt8 then some .bar
  else if c = '&'.toUInt8 then some .amp
  else if c = ';'.toUInt8 then some .semi
  else if c = '('.toUInt8 then some .lparen
  else if c = ')'.toUInt8 then some .rparen
  else if c = '<'.toUInt8 then some .lt
  else none

-- The tokens of a text; a word is as long as it can be.
def tokens : List UInt8 → List Tok
  | [] => []
  | c :: cs =>
    if isSpace c then tokens cs
    else
      match single c with
      | some t => t :: tokens cs
      | none =>
        if c = '>'.toUInt8 then
          if cs.head? = some '>'.toUInt8 then .gtgt :: tokens cs.tail else .gt :: tokens cs
        else .word (c :: cs.takeWhile isWord) :: tokens (cs.dropWhile isWord)
  termination_by text => text.length
  decreasing_by
    all_goals simp only [length_cons, length_tail]
    all_goals have := (dropWhile_sublist isWord (l := cs)).length_le
    all_goals omega

inductive Mode where
  | read
  | write
  | append
  deriving DecidableEq, Repr

def Mode.tok : Mode → Tok
  | .read => .lt
  | .write => .gt
  | .append => .gtgt

@[ext] structure Redirect where
  mode : Mode
  file : Word

@[ext] structure Arg where
  word : Word
  redirs : List Redirect

inductive Tree where
  | exec (argv : List Word)
  | redir (t : Tree) (r : Redirect)
  | pipe (left right : Tree)
  | list (left right : Tree)
  | back (t : Tree)

inductive Sym where
  | exec
  | pipe
  | line

-- line := pipe '&'* [';' line];  pipe := exec ['|' pipe];
-- exec := '(' line ')' redir* | redir* (word redir*)*;  redir := ('<' | '>' | '>>') word
inductive Deriv : Sym → Type where
  | block (l : Deriv .line) (rs : List Redirect) : Deriv .exec
  | words (rs : List Redirect) (args : List Arg) (short : args.length ≤ MAXARGS - 1) : Deriv .exec
  | exec (e : Deriv .exec) : Deriv .pipe
  | pipe (e : Deriv .exec) (p : Deriv .pipe) : Deriv .pipe
  | line (p : Deriv .pipe) (amps : Nat) : Deriv .line
  | list (p : Deriv .pipe) (amps : Nat) (l : Deriv .line) : Deriv .line

def Redirect.toks (r : Redirect) : List Tok := [r.mode.tok, .word r.file]

def redirToks (rs : List Redirect) : List Tok := rs.flatMap Redirect.toks

def Arg.toks (a : Arg) : List Tok := .word a.word :: redirToks a.redirs

def argToks (args : List Arg) : List Tok := args.flatMap Arg.toks

def Deriv.toks : {s : Sym} → Deriv s → List Tok
  | _, .block l rs => .lparen :: (l.toks ++ .rparen :: redirToks rs)
  | _, .words rs args _ => redirToks rs ++ argToks args
  | _, .exec e => e.toks
  | _, .pipe e p => e.toks ++ .bar :: p.toks
  | _, .line p amps => p.toks ++ List.replicate amps .amp
  | _, .list p amps l => p.toks ++ (List.replicate amps .amp ++ .semi :: l.toks)

def redirected (t : Tree) (rs : List Redirect) : Tree := rs.foldl Tree.redir t

def backs (n : Nat) (t : Tree) : Tree := Tree.back^[n] t

def Deriv.tree : {s : Sym} → Deriv s → Tree
  | _, .block l rs => redirected l.tree rs
  | _, .words rs args _ => redirected (.exec (args.map Arg.word)) (rs ++ args.flatMap Arg.redirs)
  | _, .exec e => e.tree
  | _, .pipe e p => .pipe e.tree p.tree
  | _, .line p amps => backs amps p.tree
  | _, .list p amps l => .list (backs amps p.tree) l.tree

@[simp] theorem redirToks_nil : redirToks [] = [] := rfl

@[simp] theorem redirToks_cons (r : Redirect) (rs : List Redirect) :
    redirToks (r :: rs) = r.mode.tok :: .word r.file :: redirToks rs := rfl

@[simp] theorem argToks_nil : argToks [] = [] := rfl

@[simp] theorem argToks_cons (a : Arg) (args : List Arg) :
    argToks (a :: args) = .word a.word :: (redirToks a.redirs ++ argToks args) := rfl

theorem Mode.tok_inj {m m' : Mode} (h : m.tok = m'.tok) : m = m' := by
  cases m <;> cases m' <;> simp_all [Mode.tok]

-- What the text after a symbol of the grammar can start with.
def Sym.follow : Sym → List Tok
  | .exec => [.bar, .rparen, .amp, .semi]
  | .pipe => [.rparen, .amp, .semi]
  | .line => [.rparen]

attribute [local simp] Sym.follow

def Follow (s : Sym) (ts : List Tok) : Prop := ∀ t ∈ ts.head?, t ∈ s.follow

theorem Follow.nil (s : Sym) : Follow s [] := by
  simp [Follow]

variable {ts : List Tok}

variable {s : Sym} {ts' us : List Tok}

theorem follow_cons {t : Tok} : Follow s (t :: ts) ↔ t ∈ s.follow := by
  simp [Follow]

theorem Follow.exec (h : Follow .pipe ts) : Follow .exec ts := by
  intro t ht
  have := h t ht
  simp only [Sym.follow, mem_cons] at this ⊢
  tauto

theorem Follow.amps (n : Nat) (h : Follow .pipe ts) : Follow .pipe (List.replicate n .amp ++ ts) := by
  cases n with
  | zero => simpa using h
  | succ n => simp [replicate_succ, follow_cons]

theorem Follow.pipe (h : Follow .line ts) : Follow .pipe ts := by
  intro t ht
  have := h t ht
  simp only [Sym.follow, mem_cons] at this ⊢
  tauto

def NoRedir (ts : List Tok) : Prop := ∀ m : Mode, ∀ us, ts ≠ m.tok :: us

theorem Follow.noRedir (h : Follow .exec ts) : NoRedir ts := by
  intro m us heq
  have := h m.tok (by simp [heq])
  cases m <;> simp [Mode.tok] at this

theorem argToks_noRedir (args : List Arg) (h : Follow .exec ts) : NoRedir (argToks args ++ ts) := by
  cases args with
  | nil => exact h.noRedir
  | cons a args =>
    intro m us heq
    cases m <;> simp [Mode.tok] at heq

theorem redirToks_inj {rs rs' : List Redirect} (h : NoRedir ts) (h' : NoRedir ts')
    (heq : redirToks rs ++ ts = redirToks rs' ++ ts') : rs = rs' ∧ ts = ts' := by
  induction rs generalizing rs' with
  | nil =>
    cases rs' with
    | nil => simpa using heq
    | cons r rs' => exact absurd heq (h r.mode _)
  | cons r rs ih =>
    cases rs' with
    | nil => exact absurd heq.symm (h' r.mode _)
    | cons r' rs' =>
      simp only [redirToks_cons, cons_append, List.cons.injEq, Tok.word.injEq] at heq
      obtain ⟨hm, hf, hrest⟩ := heq
      obtain ⟨hrs, hts⟩ := ih hrest
      have hr : r = r' := Redirect.ext (Mode.tok_inj hm) hf
      exact ⟨by rw [hr, hrs], hts⟩

theorem Follow.not_word {w : Word} (h : Follow .exec ts) : ts ≠ .word w :: us := by
  intro heq
  have := h (.word w) (by simp [heq])
  simp at this

theorem argToks_inj {as as' : List Arg} (h : Follow .exec ts) (h' : Follow .exec ts')
    (heq : argToks as ++ ts = argToks as' ++ ts') : as = as' ∧ ts = ts' := by
  induction as generalizing as' with
  | nil =>
    cases as' with
    | nil => simpa using heq
    | cons a as' => exact absurd heq h.not_word
  | cons a as ih =>
    cases as' with
    | nil => exact absurd heq.symm h'.not_word
    | cons a' as' =>
      simp only [argToks_cons, cons_append, List.cons.injEq, Tok.word.injEq, append_assoc] at heq
      obtain ⟨hw, hrest⟩ := heq
      obtain ⟨hr, hrest⟩ := redirToks_inj (argToks_noRedir _ h) (argToks_noRedir _ h') hrest
      obtain ⟨has, hts⟩ := ih hrest
      have ha : a = a' := Arg.ext hw hr
      exact ⟨by rw [ha, has], hts⟩

theorem words_ne_lparen (rs : List Redirect) (args : List Arg) (h : Follow .exec ts) :
    redirToks rs ++ argToks args ++ ts ≠ .lparen :: us := by
  intro heq
  cases rs with
  | cons r rs =>
    simp only [redirToks_cons, cons_append, List.cons.injEq] at heq
    cases hm : r.mode <;> simp [hm, Mode.tok] at heq
  | nil =>
    cases args with
    | cons a args => simp at heq
    | nil =>
      have := h .lparen (by simp_all)
      simp at this

theorem replicate_inj {n n' : Nat} (h : ts.head? ≠ some .amp) (h' : ts'.head? ≠ some .amp)
    (heq : List.replicate n Tok.amp ++ ts = List.replicate n' Tok.amp ++ ts') : n = n' ∧ ts = ts' := by
  induction n generalizing n' with
  | zero =>
    cases n' with
    | zero => simpa using heq
    | succ n' =>
      simp only [replicate_zero, nil_append] at heq
      simp [heq, replicate_succ] at h
  | succ n ih =>
    cases n' with
    | zero =>
      simp only [replicate_zero, nil_append] at heq
      simp [← heq, replicate_succ] at h'
    | succ n' =>
      simp only [replicate_succ, cons_append, List.cons.injEq, true_and] at heq
      obtain ⟨hn, hts⟩ := ih heq
      exact ⟨by rw [hn], hts⟩

theorem Follow.not_amp (h : Follow .line ts) : ts.head? ≠ some .amp := by
  intro heq
  have := h .amp (by simp [heq])
  simp at this

theorem Follow.not_semi (h : Follow .line ts) : ts ≠ .semi :: us := by
  intro heq
  have := h .semi (by simp [heq])
  simp at this

theorem Follow.not_bar (h : Follow .pipe ts) : ts ≠ .bar :: us := by
  intro heq
  have := h .bar (by simp [heq])
  simp at this

theorem follow_pipe_semi (ts : List Tok) : Follow .pipe (.semi :: ts) := by
  simp [follow_cons]

theorem follow_exec_bar (ts : List Tok) : Follow .exec (.bar :: ts) := by
  simp [follow_cons]

theorem follow_line_rparen (ts : List Tok) : Follow .line (.rparen :: ts) := by
  simp [follow_cons]

theorem Deriv.toks_inj (d d' : Deriv s) (h : Follow s ts) (h' : Follow s ts')
    (heq : d.toks ++ ts = d'.toks ++ ts') : d = d' ∧ ts = ts' := by
  induction d generalizing ts ts' with
  | block l rs ih =>
    cases d' with
    | block l' rs' =>
      simp only [toks, cons_append, List.cons.injEq, true_and, append_assoc] at heq
      obtain ⟨hl, hrest⟩ := ih l' (follow_line_rparen _) (follow_line_rparen _) heq
      simp only [List.cons.injEq, true_and] at hrest
      obtain ⟨hrs, hts⟩ := redirToks_inj h.noRedir h'.noRedir hrest
      exact ⟨by rw [hl, hrs], hts⟩
    | words rs' args' => exact absurd heq.symm (words_ne_lparen rs' args' h')
  | words rs args =>
    cases d' with
    | block l' rs' => exact absurd heq (words_ne_lparen rs args h)
    | words rs' args' =>
      simp only [toks, append_assoc] at heq
      obtain ⟨hrs, hrest⟩ := redirToks_inj (argToks_noRedir _ h) (argToks_noRedir _ h') heq
      obtain ⟨hargs, hts⟩ := argToks_inj h h' hrest
      subst hrs hargs
      exact ⟨rfl, hts⟩
  | exec e ih =>
    cases d' with
    | exec e' =>
      obtain ⟨he, hts⟩ := ih e' h.exec h'.exec heq
      exact ⟨by rw [he], hts⟩
    | pipe e' p' =>
      simp only [toks, append_assoc, cons_append] at heq
      exact absurd (ih e' h.exec (follow_exec_bar _) heq).2 h.not_bar
  | pipe e p ihe ihp =>
    simp only [toks, append_assoc, cons_append] at heq
    cases d' with
    | exec e' => exact absurd (ihe e' (follow_exec_bar _) h'.exec heq).2.symm h'.not_bar
    | pipe e' p' =>
      simp only [toks, append_assoc, cons_append] at heq
      obtain ⟨he, hrest⟩ := ihe e' (follow_exec_bar _) (follow_exec_bar _) heq
      simp only [List.cons.injEq, true_and] at hrest
      obtain ⟨hp, hts⟩ := ihp p' h h' hrest
      exact ⟨by rw [he, hp], hts⟩
  | line p n ih =>
    simp only [toks, append_assoc] at heq
    cases d' with
    | line p' n' =>
      simp only [toks, append_assoc] at heq
      obtain ⟨hp, hrest⟩ := ih p' (h.pipe.amps n) (h'.pipe.amps n') heq
      obtain ⟨hn, hts⟩ := replicate_inj h.not_amp h'.not_amp hrest
      exact ⟨by rw [hp, hn], hts⟩
    | list p' n' l' =>
      simp only [toks, append_assoc, cons_append] at heq
      obtain ⟨-, hrest⟩ := ih p' (h.pipe.amps n) ((follow_pipe_semi _).amps n') heq
      exact absurd (replicate_inj h.not_amp (by simp) hrest).2 h.not_semi
  | list p n l ihp ihl =>
    simp only [toks, append_assoc, cons_append] at heq
    cases d' with
    | line p' n' =>
      simp only [toks, append_assoc] at heq
      obtain ⟨-, hrest⟩ := ihp p' ((follow_pipe_semi _).amps n) (h'.pipe.amps n') heq
      exact absurd (replicate_inj (by simp) h'.not_amp hrest).2.symm h'.not_semi
    | list p' n' l' =>
      simp only [toks, append_assoc, cons_append] at heq
      obtain ⟨hp, hrest⟩ := ihp p' ((follow_pipe_semi _).amps n) ((follow_pipe_semi _).amps n') heq
      obtain ⟨hn, hrest⟩ := replicate_inj (by simp) (by simp) hrest
      simp only [List.cons.injEq, true_and] at hrest
      obtain ⟨hl, hts⟩ := ihl l' h h' hrest
      exact ⟨by rw [hp, hn, hl], hts⟩

end Sh
