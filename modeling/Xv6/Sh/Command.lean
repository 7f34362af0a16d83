import Xv6.Sh.Parser

-- The strings of the command that parsecmd returns, once they end in NULs.

namespace Sh

open List

def cstr (buf : Buf) (q : Nat) : Word := (buf.drop q).takeWhile (· ≠ 0)

def Reads (buf : Buf) (q _e : Nat) (w : Word) : Prop := cstr buf q = w

section

variable {line : List UInt8}

theorem char_append_nul (i : Nat) : char (line ++ [0]) i = char line i := by
  simp only [char, getD_eq_getElem?_getD, getElem?_append]
  split
  · rfl
  · rw [getElem?_eq_none (by omega : line.length ≤ i)]
    cases i - line.length <;> simp

theorem char_set (buf : Buf) (e i : Nat) : char (buf.set e 0) i = if i = e then 0 else char buf i := by
  simp only [char, getD_eq_getElem?_getD, getElem?_set]
  by_cases h : e = i
  · subst h
    simp only [if_true]
    split <;> simp
  · rw [if_neg h, if_neg (Ne.symm h)]

-- NULs are written between words only.
structure Cut (line buf buf' : List UInt8) : Prop where
  words : ∀ i < line.length, isWord (char line i) → char buf' i = char buf i
  nuls : ∀ i, char buf i = 0 → char buf' i = 0

theorem Cut.refl (buf : Buf) : Cut line buf buf := ⟨fun _ _ _ => rfl, fun _ h => h⟩

variable {buf buf' : Buf}

theorem Cut.trans {buf'' : Buf} (h : Cut line buf buf') (h' : Cut line buf' buf'') : Cut line buf buf'' := by
  refine ⟨fun i hi hw => ?_, fun i hi => h'.nuls i (h.nuls i hi)⟩
  rw [h'.words i hi hw, h.words i hi hw]

variable {e q : Nat}

variable {w : Word} {c : Cmd} {t : Tree}

theorem Span.stop (h : Span line q e w) : ¬ (e < line.length ∧ isWord (char line e)) := by
  obtain ⟨htake, rfl⟩ := h
  rintro ⟨hlt, hword⟩
  have hdrop : line.drop (q + w.length) = (line.drop q).dropWhile isWord := by
    rw [← drop_drop, ← htake, drop_length_takeWhile]
  rw [drop_cons_of_lt hlt] at hdrop
  have hhead := head_dropWhile_not isWord (l := line.drop q) (by simp [← hdrop])
  simp [← hdrop, hword] at hhead

theorem Span.cut (h : Span line q e w) (buf : Buf) : Cut line buf (buf.set e 0) := by
  constructor
  · intro i hi hw
    rw [char_set, if_neg]
    rintro rfl
    exact h.stop ⟨hi, hw⟩
  · intro i hi
    rw [char_set]
    split
    · rfl
    · exact hi

def Ended (line buf : List UInt8) (q e : Nat) (w : Word) : Prop := Span line q e w ∧ char buf e = 0

theorem Ended.later (h : Cut line buf buf') (q e : Nat) (w : Word) (he : Ended line buf q e w) :
    Ended line buf' q e w :=
  ⟨he.1, h.nuls e he.2⟩

theorem nulArgs_ends {cmd : Exec} {ws : List Word} (h : ShowsExec (Span line) cmd ws) (n : Nat) :
    ∀ (i : Nat) (buf : Buf), i ≤ ws.length → ws.length < i + n →
      ∃ buf', nulArgs cmd n i buf = some buf' ∧ Cut line buf buf' ∧
        ∀ k : Fin MAXARGS, i ≤ k.val → Points (Ended line buf') (cmd.argv k) (cmd.eargv k) ws[k.val]? := by
  induction n with
  | zero => intro i buf hi hn; omega
  | succ n ih =>
    intro i buf hi hn
    have hlt : i < MAXARGS := Nat.lt_of_le_of_lt hi h.short
    have harg := h.args ⟨i, hlt⟩
    rw [nulArgs, dif_pos hlt]
    rcases Nat.lt_or_ge i ws.length with hlen | hlen
    · rw [getElem?_eq_getElem hlen] at harg
      obtain ⟨q, hq⟩ : ∃ q, cmd.argv ⟨i, hlt⟩ = some q := by
        cases hq : cmd.argv ⟨i, hlt⟩ with
        | none => simp [hq, Points] at harg
        | some q => exact ⟨q, rfl⟩
      obtain ⟨e, he⟩ : ∃ e, cmd.eargv ⟨i, hlt⟩ = some e := by
        cases he : cmd.eargv ⟨i, hlt⟩ with
        | none => simp [hq, he, Points] at harg
        | some e => exact ⟨e, rfl⟩
      have hspan : Span line q e ws[i] := by simpa [hq, he, Points] using harg
      obtain ⟨buf', hnul, hcut, hends⟩ := ih (i + 1) (buf.set e 0) (by omega) (by omega)
      have hzero : char buf' e = 0 := hcut.nuls e (by simp [char_set])
      refine ⟨buf', by rw [hq, he]; exact hnul, (hspan.cut buf).trans hcut, fun k hk => ?_⟩
      rcases Nat.eq_or_lt_of_le hk with hki | hki
      · have hk' : k = ⟨i, hlt⟩ := Fin.ext hki.symm
        subst hk'
        rw [hq, he, getElem?_eq_getElem hlen]
        exact ⟨hspan, hzero⟩
      · exact hends k hki
    · rw [getElem?_eq_none hlen] at harg
      have hq : cmd.argv ⟨i, hlt⟩ = none := by
        cases hq : cmd.argv ⟨i, hlt⟩ with
        | none => rfl
        | some q => simp [hq, Points] at harg
      refine ⟨buf, by rw [hq], .refl buf, fun k hk => ?_⟩
      have hnone := h.args k
      rw [getElem?_eq_none (by omega)] at hnone ⊢
      generalize cmd.argv k = a at hnone ⊢
      generalize cmd.eargv k = e at hnone ⊢
      cases a <;> cases e <;> simp_all [Points]

theorem nulterminate_ends (h : Shows (Span line) c t) : ∀ buf, ∃ buf',
    nulterminate c buf = some buf' ∧ Cut line buf buf' ∧ Shows (Ended line buf') c t := by
  induction h with
  | exec h =>
    intro buf
    have hshort := h.short
    obtain ⟨buf', hnul, hcut, hends⟩ := nulArgs_ends h (MAXARGS + 1) 0 buf (Nat.zero_le _) (by omega)
    exact ⟨buf', hnul, hcut, .exec ⟨h.short, fun k => hends k (Nat.zero_le _)⟩⟩
  | @redir cmd t r x _ hr ih =>
    intro buf
    obtain ⟨buf', hnul, hcut, hends⟩ := ih buf
    have hcut' := hr.file.cut buf'
    refine ⟨buf'.set r.efile 0, by simp [nulterminate, hnul], hcut.trans hcut', ?_⟩
    exact .redir (hends.mono (Ended.later hcut')) ⟨⟨hr.file, by simp [char_set]⟩, hr.mode, hr.fd⟩
  | pipe _ _ ihl ihr =>
    intro buf
    obtain ⟨buf', hnul, hcut, hends⟩ := ihl buf
    obtain ⟨buf'', hnul', hcut', hends'⟩ := ihr buf'
    exact ⟨buf'', by simp [nulterminate, hnul, hnul'], hcut.trans hcut', .pipe (hends.mono (Ended.later hcut')) hends'⟩
  | list _ _ ihl ihr =>
    intro buf
    obtain ⟨buf', hnul, hcut, hends⟩ := ihl buf
    obtain ⟨buf'', hnul', hcut', hends'⟩ := ihr buf'
    exact ⟨buf'', by simp [nulterminate, hnul, hnul'], hcut.trans hcut', .list (hends.mono (Ended.later hcut')) hends'⟩
  | back _ ih =>
    intro buf
    obtain ⟨buf', hnul, hcut, hends⟩ := ih buf
    exact ⟨buf', hnul, hcut, .back hends⟩

theorem cstr_of_char_eq_zero (h : char buf q = 0) : cstr buf q = [] := by
  unfold cstr
  rcases Nat.lt_or_ge q buf.length with hlt | hge
  · rw [drop_cons_of_lt hlt, h]
    simp
  · rw [drop_eq_nil_of_le hge]
    simp

theorem cstr_of_char_ne_zero (h : char buf q ≠ 0) : cstr buf q = char buf q :: cstr buf (q + 1) := by
  have hlt : q < buf.length := by
    by_contra hge
    exact h (char_of_le (by omega))
  unfold cstr
  rw [drop_cons_of_lt hlt, takeWhile_cons]
  simp [h]

theorem cstr_word (hline : 0 ∉ line) (hcut : Cut line (line ++ [0]) buf) (w : Word) : ∀ q,
    (line.drop q).takeWhile isWord = w → char buf (q + w.length) = 0 → cstr buf q = w := by
  induction w with
  | nil =>
    intro q _ hzero
    exact cstr_of_char_eq_zero hzero
  | cons c w ih =>
    intro q htake hzero
    have hlt : q < line.length := by
      by_contra hge
      rw [drop_eq_nil_of_le (by omega)] at htake
      cases htake
    rw [drop_cons_of_lt hlt, takeWhile_cons] at htake
    split at htake
    · rename_i hword
      obtain ⟨hc, hrest⟩ := List.cons.inj htake
      have hbuf : char buf q = c := by
        rw [hcut.words q hlt hword, char_append_nul, hc]
      have hne : c ≠ 0 := fun h0 => hline (by rw [← h0, ← hc]; exact char_mem hlt)
      rw [cstr_of_char_ne_zero (by rwa [hbuf]), hbuf]
      rw [ih (q + 1) hrest (by rw [← hzero, length_cons]; congr 1; omega)]
    · cases htake

theorem length_tokens_le (text : List UInt8) : (tokens text).length ≤ text.length := by
  fun_induction tokens text with
  | case1 => simp
  | case2 c cs _ ih =>
    simp only [length_cons]
    omega
  | case3 c cs _ t _ ih | case5 cs _ _ _ ih => simpa using ih
  | case4 cs _ _ _ ih =>
    simp only [length_cons, length_tail] at ih ⊢
    omega
  | case6 c cs _ _ _ ih =>
    have := (dropWhile_sublist isWord (l := cs)).length_le
    simp only [length_cons]
    omega

theorem at_zero : At line 0 (tokens line) := ⟨Nat.zero_le _, by simp⟩

theorem at_end (hline : 0 ∉ line) {i : Nat} {ts : List Tok} (h : At line i ts) :
    ∃ j, peek line [] i = .ok false j ∧ At line j ts ∧ (j = line.length ↔ ts = []) := by
  refine ⟨skip line isSpace i, by simp [peek], at_skip h, ?_⟩
  obtain ⟨hs, rfl⟩ | ⟨t, e, rest, -, rfl, -, hne⟩ := at_head hline h
  · simp [hs]
  · refine iff_of_false (fun hs => hne ?_) (by simp)
    rw [hs, char_of_le (Nat.le_refl _)]

theorem readcmd_sound (hline : 0 ∉ line) : Holds SyntaxError (readcmd line) 0 fun c j =>
    ∃ (d : Deriv .line) (rest : List Tok), tokens line = d.toks ++ rest ∧ Shows (Span line) c d.tree ∧
      (j = line.length ↔ rest = []) := by
  have hlen := length_tokens_le line
  have hparse := parse_sound hline (4 * line.length + 6) (4 * line.length + 5) (by omega) .line 0 _ at_zero
    (by simp only [Sym.need]; omega)
  unfold readcmd
  apply hparse.bind
  rintro c j ⟨d, rest, htoks, hj, hshow⟩
  obtain ⟨k, hpeek, -, hend⟩ := at_end hline hj
  apply holds_bind_of_eq hpeek
  exact ⟨d, rest, htoks, hshow, hend⟩

theorem readcmd_complete (hline : 0 ∉ line) {d : Deriv .line} (hd : d.toks = tokens line) :
    Holds NoPanic (readcmd line) 0 fun _ j => j = line.length := by
  have hlen := length_tokens_le line
  have h0 : At line 0 (d.toks ++ []) := by
    rw [append_nil, hd]
    exact at_zero
  have hparse := parse_complete hline d (4 * line.length + 5) 0 [] (.nil _) h0 (by simp only [Sym.need, hd]; omega)
  unfold readcmd
  apply hparse.bind
  intro c j hj
  obtain ⟨k, hpeek, -, hend⟩ := at_end hline hj
  apply holds_bind_of_eq hpeek
  exact hend.mpr rfl

-- The comparison with "cd" is made at the end of the line, so it always fails.
theorem parsecmd_of_readcmd (hline : 0 ∉ line) (h : readcmd line 0 = .ok c line.length)
    (hshow : Shows (Span line) c t) :
    ∃ buf, parsecmd line = .ok (c, buf) line.length ∧ Shows (fun q e w => Span line q e w ∧ Reads buf q e w) c t := by
  obtain ⟨buf, hnul, hcut, hends⟩ := nulterminate_ends hshow (line ++ [0])
  have hend : char buf line.length = 0 := by
    apply hcut.nuls
    rw [char_append_nul, char_of_le (Nat.le_refl _)]
  have hcd : ¬ isCd buf line.length = true := by
    simp only [isCd, hend, decide_eq_true_eq]
    rintro ⟨habs, -⟩
    exact absurd habs (by decide)
  refine ⟨buf, ?_, hends.mono fun q e w hw => ?_⟩
  · simp only [parsecmd, h, hnul, ne_eq, not_true_eq_false, if_false, if_neg hcd]
  · obtain ⟨⟨htake, rfl⟩, hzero⟩ := hw
    exact ⟨⟨htake, rfl⟩, cstr_word hline hcut w q htake hzero⟩

-- The parser decides the grammar, and the command is the one of the only derivation.
theorem parsecmd_decides (line : List UInt8) (hline : 0 ∉ line) :
    (∃ d : Deriv .line, d.toks = tokens line ∧ (∀ d' : Deriv .line, d'.toks = tokens line → d' = d) ∧
      ∃ cmd buf, parsecmd line = .ok (cmd, buf) line.length ∧ Shows (Reads buf) cmd d.tree) ∨
    ((∀ d : Deriv .line, d.toks ≠ tokens line) ∧ ∃ e, SyntaxError e ∧ parsecmd line = .panic e) := by
  have hsound := readcmd_sound hline
  unfold Holds at hsound
  by_cases hd : ∃ d : Deriv .line, d.toks = tokens line
  · left
    obtain ⟨d, hd⟩ := hd
    have hcomplete := readcmd_complete hline hd
    unfold Holds at hcomplete
    have huniq : ∀ d' : Deriv .line, d'.toks = tokens line → d' = d := fun d' hd' =>
      (Deriv.toks_inj d' d (.nil _) (.nil _) (by rw [hd', hd])).1
    cases hread : readcmd line 0 with
    | ok c j =>
      rw [hread] at hsound hcomplete
      obtain ⟨d', rest, htoks, hshow, hend⟩ := hsound
      dsimp only at hcomplete
      have hrest := hend.mp hcomplete
      rw [hrest, append_nil] at htoks
      rw [huniq d' htoks.symm] at hshow
      rw [hcomplete] at hread
      obtain ⟨buf, hparse, hreads⟩ := parsecmd_of_readcmd hline hread hshow
      exact ⟨d, hd, huniq, c, buf, hparse, hreads.mono fun _ _ _ h => h.2⟩
    | panic e | overrun | fuel => rw [hread] at hcomplete; exact hcomplete.elim
  · right
    have hnot : ∀ d : Deriv .line, d.toks ≠ tokens line := fun d h => hd ⟨d, h⟩
    refine ⟨hnot, ?_⟩
    cases hread : readcmd line 0 with
    | ok c j =>
      rw [hread] at hsound
      obtain ⟨d, rest, htoks, -, hend⟩ := hsound
      have hj : j ≠ line.length := by
        intro hj
        apply hnot d
        rw [htoks, hend.mp hj, append_nil]
      exact ⟨.syntaxError, by decide, by simp only [parsecmd, hread, if_pos hj]⟩
    | panic e =>
      rw [hread] at hsound
      exact ⟨e, hsound, by simp only [parsecmd, hread]⟩
    | overrun | fuel => rw [hread] at hsound; exact hsound.elim

def twoCommands : List UInt8 :=
  chars ['(', 'e', 'c', 'h', 'o', ' ', 'a', ' ', '>', ' ', 'b', ')', ' ', ';', ' ', 'l', 's', ' ', '&']

theorem parsecmd_decides_twoCommands : 0 ∉ twoCommands ∧
    ((∃ d : Deriv .line, d.toks = tokens twoCommands ∧ (∀ d' : Deriv .line, d'.toks = tokens twoCommands → d' = d) ∧
      ∃ cmd buf, parsecmd twoCommands = .ok (cmd, buf) twoCommands.length ∧ Shows (Reads buf) cmd d.tree) ∨
    ((∀ d : Deriv .line, d.toks ≠ tokens twoCommands) ∧ ∃ e, SyntaxError e ∧ parsecmd twoCommands = .panic e)) :=
  ⟨by decide, parsecmd_decides twoCommands (by decide)⟩

def token (line : List UInt8) (q e : Nat) : Word := (line.drop q).take (e - q)

-- Every string of the command is the token that was parsed, and argv ends after its last word.
def Intact (line : List UInt8) (buf : Buf) : Cmd → Prop
  | .exec cmd => ∃ argc < MAXARGS, ∀ i : Fin MAXARGS,
    (i.val < argc → ∃ q e, cmd.argv i = some q ∧ cmd.eargv i = some e ∧ cstr buf q = token line q e) ∧
    (argc ≤ i.val → cmd.argv i = none)
  | .redir cmd r => Intact line buf cmd ∧ cstr buf r.file = token line r.file r.efile
  | .pipe left right => Intact line buf left ∧ Intact line buf right
  | .list left right => Intact line buf left ∧ Intact line buf right
  | .back cmd => Intact line buf cmd
  | .builtin _ => False

theorem Span.token_eq (h : Span line q e w) : token line q e = w := by
  obtain ⟨htake, rfl⟩ := h
  rw [token, Nat.add_sub_cancel_left, ← htake]
  exact (List.prefix_iff_eq_take.mp (List.takeWhile_prefix isWord)).symm

theorem Shows.intact (h : Shows (fun q e w => Span line q e w ∧ Reads buf q e w) c t) :
    Intact line buf c := by
  induction h with
  | @exec cmd ws h =>
    refine ⟨ws.length, h.short, fun i => ?_⟩
    have hi := h.args i
    generalize cmd.argv i = a at hi ⊢
    generalize cmd.eargv i = b at hi ⊢
    constructor
    · intro hlt
      rw [getElem?_eq_getElem hlt] at hi
      match a, b, hi with
      | some q, some e, hi => exact ⟨q, e, rfl, rfl, hi.2.trans hi.1.token_eq.symm⟩
    · intro hge
      rw [getElem?_eq_none hge] at hi
      match a, b, hi with
      | none, none, _ => rfl
  | redir _ hr ih => exact ⟨ih, hr.file.2.trans hr.file.1.token_eq.symm⟩
  | pipe _ _ ihl ihr | list _ _ ihl ihr => exact ⟨ihl, ihr⟩
  | back _ ih => exact ih

-- Writing the NULs changes no string of an accepted line.
theorem nulterminate_harmless (line : List UInt8) (hline : 0 ∉ line) (cmd : Cmd) (buf : Buf) (s : Nat)
    (h : parsecmd line = .ok (cmd, buf) s) : Intact line buf cmd := by
  have hsound := readcmd_sound hline
  unfold Holds at hsound
  cases hread : readcmd line 0 with
  | ok c j =>
    rw [hread] at hsound
    obtain ⟨d, rest, -, hshow, -⟩ := hsound
    have hj : j = line.length := by
      by_contra hj
      simp only [parsecmd, hread, if_pos hj] at h
      cases h
    rw [hj] at hread
    obtain ⟨buf', hparse, hreads⟩ := parsecmd_of_readcmd hline hread hshow
    rw [hparse] at h
    cases h
    exact hreads.intact
  | panic e | overrun | fuel => simp [parsecmd, hread] at h

theorem nulterminate_harmless_twoCommands : ∃ cmd buf s, parsecmd twoCommands = .ok (cmd, buf) s ∧ Intact twoCommands buf cmd := by
  have hok : (match parsecmd twoCommands with | .ok _ _ => true | _ => false) = true := by decide
  match h : parsecmd twoCommands, hok with
  | .ok (cmd, buf) s, _ => exact ⟨cmd, buf, s, rfl, nulterminate_harmless twoCommands (by decide) cmd buf s h⟩

end

end Sh
