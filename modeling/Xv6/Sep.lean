import Xv6.Prog.Rules

-- Programs over cells that are allocated and freed, and triples about the cells a program owns.
-- Assertions are sets of heaps; their pointwise product is the separating conjunction.

namespace Sep

open List Function
open scoped Pointwise

-- What a part of the memory says about one cell. Two owners of one cell clash.
inductive Cell (V : Type) where
  | empty
  | own (v : V)
  | clash

namespace Cell

variable {V : Type}

def mul : Cell V → Cell V → Cell V
  | empty, y => y
  | x, empty => x
  | _, _ => clash

instance : CommMonoid (Cell V) where
  mul := mul
  one := empty
  mul_assoc x y z := by cases x <;> cases y <;> cases z <;> rfl
  one_mul x := by cases x <;> rfl
  mul_one x := by cases x <;> rfl
  mul_comm x y := by cases x <;> cases y <;> rfl

theorem mul_eq (x y : Cell V) : x * y = mul x y := rfl

@[simp] theorem empty_mul (x : Cell V) : empty * x = x := one_mul x

@[simp] theorem mul_empty (x : Cell V) : x * empty = x := mul_one x

theorem mul_ne_clash {x y : Cell V} (h : x * y ≠ clash) : x ≠ clash ∧ y ≠ clash := by
  cases x <;> cases y <;> simp_all [mul_eq, mul]

theorem own_mul {x : Cell V} {v : V} (h : own v * x ≠ clash) : x = empty := by
  cases x <;> simp_all [mul_eq, mul]

theorem mul_eq_empty {x y : Cell V} : x * y = empty ↔ x = empty ∧ y = empty := by
  cases x <;> cases y <;> simp [mul_eq, mul]

end Cell

abbrev Heap (K V : Type) := K → Cell V

section Heap

variable {K V : Type}

def Valid (h : Heap K V) : Prop := ∀ k, h k ≠ .clash

variable {h f : Heap K V} {k : K} {v : V}

theorem Valid.left (hv : Valid (h * f)) : Valid h := fun k => (Cell.mul_ne_clash (hv k)).1

theorem Valid.right (hv : Valid (h * f)) : Valid f := fun k => (Cell.mul_ne_clash (hv k)).2

theorem Valid.frame_empty (hv : Valid (h * f)) (hk : h k = .own v) : f k = .empty := by
  have hc := hv k
  rw [Pi.mul_apply, hk] at hc
  exact Cell.own_mul hc

theorem Valid.mul_own (hv : Valid (h * f)) (hk : h k = .own v) : (h * f) k = .own v := by
  rw [Pi.mul_apply, hk, hv.frame_empty hk, Cell.mul_empty]

theorem Valid.owned (hv : Valid h) (hk : h k ≠ .empty) : ∃ v, h k = .own v := by
  cases hc : h k with
  | empty => exact absurd hc hk
  | own v => exact ⟨v, rfl⟩
  | clash => exact absurd hc (hv k)

theorem Valid.cancel {g : Heap K V} (hv : Valid (h * f)) (he : g * f = h * f) : g = h := by
  funext k
  have hk := congrFun he k
  rw [Pi.mul_apply, Pi.mul_apply] at hk
  cases hf : f k with
  | empty => rwa [hf, Cell.mul_empty, Cell.mul_empty] at hk
  | own v =>
    have hc := hv k
    have hc' : g k * f k ≠ .clash := by rwa [hk]
    rw [Pi.mul_apply, hf, mul_comm] at hc
    rw [hf, mul_comm] at hc'
    rw [Cell.own_mul hc, Cell.own_mul hc']
  | clash => exact absurd hf (hv.right k)

theorem valid_one : Valid (1 : Heap K V) := fun _ => nofun

variable [DecidableEq K]

def single (k : K) (v : V) : Heap K V := Pi.mulSingle k (.own v)

@[simp] theorem single_self (k : K) (v : V) : single k v k = .own v := Pi.mulSingle_eq_same k _

theorem single_of_ne {j : K} (v : V) (h : j ≠ k) : single k v j = .empty := Pi.mulSingle_eq_of_ne h _

theorem single_ne_empty {j : K} : single k v j ≠ .empty ↔ j = k := by
  constructor
  · intro h
    by_contra hj
    exact h (single_of_ne v hj)
  · intro h
    subst h
    rw [single_self]
    nofun

theorem valid_single_mul (hv : Valid h) (v : V) (hk : h k = .empty) : Valid (single k v * h) := by
  intro j
  rw [Pi.mul_apply]
  by_cases hj : j = k
  · subst hj
    rw [single_self, hk]
    nofun
  · rw [single_of_ne v hj, Cell.empty_mul]
    exact hv j

theorem update_single_mul (hv : Valid (single k v * h)) (w : V) :
    update (single k v * h) k (.own w) = single k w * h := by
  have hk := hv.frame_empty (single_self k v)
  funext j
  by_cases hj : j = k
  · subst hj
    rw [update_self, Pi.mul_apply, single_self, hk, Cell.mul_empty]
  · rw [update_of_ne hj, Pi.mul_apply, Pi.mul_apply, single_of_ne v hj, single_of_ne w hj]

theorem erase_single_mul (hv : Valid (single k v * h)) : update (single k v * h) k .empty = h := by
  have hk := hv.frame_empty (single_self k v)
  funext j
  by_cases hj : j = k
  · subst hj
    rw [update_self, hk]
  · rw [update_of_ne hj, Pi.mul_apply, single_of_ne v hj, Cell.empty_mul]

end Heap

abbrev Assn (K V : Type) := Set (Heap K V)

section Prod

variable {K V ι : Type} {f g : ι → Assn K V} {is : List ι}

theorem one_mem_prod (h : ∀ i ∈ is, 1 ∈ f i) : 1 ∈ (is.map f).prod := by
  induction is with
  | nil => exact rfl
  | cons i is ih =>
    rw [map_cons, prod_cons]
    exact ⟨1, h i (by simp), 1, ih fun j hj => h j (by simp [hj]), one_mul 1⟩

theorem prod_mono (h : ∀ i ∈ is, f i ⊆ g i) : (is.map f).prod ⊆ (is.map g).prod := by
  induction is with
  | nil => exact subset_rfl
  | cons i is ih =>
    rw [map_cons, prod_cons, map_cons, prod_cons]
    exact Set.mul_subset_mul (h i (by simp)) (ih fun j hj => h j (by simp [hj]))

theorem prod_know {φ : ι → Prop} {h : Heap K V} (hf : ∀ i ∈ is, ∀ g ∈ f i, φ i) (hh : h ∈ (is.map f).prod) :
    ∀ i ∈ is, φ i := by
  induction is generalizing h with
  | nil => nofun
  | cons i is ih =>
    rw [map_cons, prod_cons] at hh
    obtain ⟨g, hg, r, hr, -⟩ := hh
    intro j hj
    rcases mem_cons.mp hj with rfl | hj
    · exact hf j mem_cons_self g hg
    · exact ih (fun l hl => hf l (mem_cons_of_mem i hl)) hr j hj

end Prod

theorem prod_single {K V ι : Type} [DecidableEq K] {f : ι → Assn K V} {key : ι → K} {val : ι → V} {is : List ι}
    {h : Heap K V} (hf : ∀ i ∈ is, ∀ g ∈ f i, g = single (key i) (val i)) (hh : h ∈ (is.map f).prod)
    (hv : Valid h) : (is.map key).Nodup ∧ (∀ k, h k ≠ .empty ↔ k ∈ is.map key) ∧
      ∀ i ∈ is, h (key i) = .own (val i) := by
  induction is generalizing h with
  | nil =>
    subst hh
    exact ⟨nodup_nil, fun k => ⟨fun hk => absurd rfl hk, nofun⟩, nofun⟩
  | cons i is ih =>
    rw [map_cons, prod_cons] at hh
    obtain ⟨g, hg, r, hr, rfl⟩ := hh
    obtain rfl := hf i (by simp) g hg
    replace hv : Valid (single (key i) (val i) * r) := hv
    obtain ⟨hnodup, hdom, hval⟩ := ih (fun j hj => hf j (by simp [hj])) hr hv.right
    have hempty := hv.frame_empty (single_self (key i) (val i))
    refine ⟨nodup_cons.mpr ⟨fun hmem => (hdom _).mpr hmem hempty, hnodup⟩, fun k => ?_, fun j hj => ?_⟩
    · show (single (key i) (val i) * r) k ≠ .empty ↔ _
      rw [Pi.mul_apply, ne_eq, Cell.mul_eq_empty, not_and_or, ← ne_eq, ← ne_eq, single_ne_empty, hdom k,
        map_cons, mem_cons]
    rcases mem_cons.mp hj with rfl | hj
    · exact hv.mul_own (single_self _ _)
    have hown := hval j hj
    show (single (key i) (val i) * r) (key j) = _
    rw [mul_comm]
    rw [mul_comm] at hv
    exact hv.mul_own hown

section Lists

variable {K V ι : Type}

structure Lists (h : Heap K V) (l : List K) : Prop where
  nodup : l.Nodup
  mem : ∀ k, h k ≠ .empty ↔ k ∈ l

def Agree (val : K → V) (h : Heap K V) : Prop := ∀ k v, h k = .own v → val k = v

variable {h f : Heap K V} {val : K → V}

theorem Agree.left (ha : Agree val (h * f)) (hv : Valid (h * f)) : Agree val h :=
  fun k v hk => ha k v (hv.mul_own hk)

theorem Agree.right (ha : Agree val (h * f)) (hv : Valid (h * f)) : Agree val f := by
  rw [mul_comm] at ha hv
  exact ha.left hv

theorem lists_one : Lists (1 : Heap K V) [] := ⟨nodup_nil, fun _ => ⟨fun h => absurd rfl h, nofun⟩⟩

theorem lists_single [DecidableEq K] (k : K) (v : V) : Lists (single k v) [k] :=
  ⟨by simp, fun j => by rw [single_ne_empty, mem_singleton]⟩

theorem Lists.mul {l l' : List K} (hl : Lists h l) (hf : Lists f l') (hv : Valid (h * f)) :
    Lists (h * f) (l ++ l') where
  nodup := by
    refine nodup_append.mpr ⟨hl.nodup, hf.nodup, fun a ha b hb hab => ?_⟩
    obtain ⟨v, hown⟩ := hv.left.owned ((hl.mem a).mpr ha)
    exact (hf.mem b).mpr hb (hab ▸ hv.frame_empty hown)
  mem k := by
    rw [Pi.mul_apply, ne_eq, Cell.mul_eq_empty, not_and_or, ← ne_eq, ← ne_eq, hl.mem, hf.mem, mem_append]

theorem prod_singles [DecidableEq K] {ks : List K} (hnodup : ks.Nodup) (val : K → V) :
    Valid (ks.map fun k => single k (val k)).prod ∧ Lists (ks.map fun k => single k (val k)).prod ks ∧
      ∀ k ∈ ks, (ks.map fun k => single k (val k)).prod k = .own (val k) := by
  induction ks with
  | nil => exact ⟨valid_one, lists_one, nofun⟩
  | cons k ks ih =>
    obtain ⟨hk, hnodup⟩ := nodup_cons.mp hnodup
    obtain ⟨hv, hl, hown⟩ := ih hnodup
    have hempty : (ks.map fun k => single k (val k)).prod k = .empty := by
      by_contra hne
      exact hk ((hl.mem k).mp hne)
    rw [map_cons, prod_cons]
    have hvalid := valid_single_mul hv (val k) hempty
    refine ⟨hvalid, (lists_single k (val k)).mul hl hvalid, fun j hj => ?_⟩
    rcases mem_cons.mp hj with rfl | hj
    · exact hvalid.mul_own (single_self j (val j))
    · rw [mul_comm] at hvalid ⊢
      exact hvalid.mul_own (hown j hj)

-- The cells of a product, if those of each factor are known from its contents.
theorem prod_lists {f : ι → Assn K V} {l : ι → List K} {is : List ι}
    (hf : ∀ i ∈ is, ∀ g ∈ f i, Valid g → Agree val g → Lists g (l i)) (hh : h ∈ (is.map f).prod) (hv : Valid h)
    (ha : Agree val h) : Lists h (is.flatMap l) := by
  induction is generalizing h with
  | nil =>
    obtain rfl : h = 1 := hh
    exact lists_one
  | cons i is ih =>
    rw [map_cons, prod_cons] at hh
    obtain ⟨g, hg, r, hr, rfl⟩ := hh
    replace hv : Valid (g * r) := hv
    replace ha : Agree val (g * r) := ha
    have hrest := ih (fun j hj => hf j (mem_cons_of_mem i hj)) hr hv.right (ha.right hv)
    exact (hf i mem_cons_self g hg hv.left (ha.left hv)).mul hrest hv

end Lists

inductive MemAct (K V : Type) where
  | alloc
  | free (k : K)
  | get (k : K)
  | put (k : K) (f : V → V)

def MemAct.Res {K V : Type} : MemAct K V → Type
  | .alloc => Option K
  | .free _ => Unit
  | .get _ => V
  | .put _ _ => Unit

def memSig (K V : Type) : Prog.Sig := ⟨MemAct K V, MemAct.Res⟩

section Triple

variable {K V : Type} [DecidableEq K] {ε α β ι : Type}

-- The steps on the cells a program owns. It may allocate any cell of `avail`,
-- which then holds `init`.
def memRule (avail : K → Prop) (init : V) : Prog.Rules (memSig K V) (Heap K V)
  | .alloc, h, P => P none h ∧ ∀ k, avail k → h k = .empty → P (some k) (single k init * h)
  | .free k, h, P => ∃ v, h k = .own v ∧ P () (update h k .empty)
  | .get k, h, P => ∃ v, h k = .own v ∧ P v h
  | .put k f, h, P => ∃ v, h k = .own v ∧ P () (update h k (.own (f v)))

variable {avail : K → Prop} {init : V}

variable (avail init) in
-- From cells that satisfy `P`, whatever else there is, the program does not
-- fail, and it leaves cells that satisfy `Q` and the rest as it was.
def Triple (P : Assn K V) (m : Prog (memSig K V) ε α) (Q : α → Assn K V) : Prop :=
  ∀ h f, h ∈ P → Valid (h * f) → Prog.awp (memRule avail init) (fun _ => False) m
    (fun a h' => Valid h' ∧ ∃ q ∈ Q a, h' = q * f) (h * f)

namespace Triple

variable {P P' R : Assn K V} {Q Q' : α → Assn K V} {m : Prog (memSig K V) ε α}

theorem ret {a : α} (h : P ⊆ Q a) : Triple avail init P (pure a : Prog (memSig K V) ε α) Q :=
  fun _ _ hP hv => ⟨hv, _, h hP, rfl⟩

theorem mono (h : Triple avail init P m Q) (hP : P' ⊆ P) (hQ : ∀ a, Q a ⊆ Q' a) : Triple avail init P' m Q' :=
  fun s f hs hv => Prog.awp_mono (h s f (hP hs) hv) fun a _ ⟨hv', q, hq, he⟩ => ⟨hv', q, hQ a hq, he⟩

theorem pre (h : Triple avail init P m Q) (hP : P' ⊆ P) : Triple avail init P' m Q :=
  h.mono hP fun _ => subset_rfl

theorem post (h : Triple avail init P m Q) (hQ : ∀ a, Q a ⊆ Q' a) : Triple avail init P m Q' :=
  h.mono subset_rfl hQ

theorem bind {Q : β → Assn K V} {R : α → Assn K V} {k : α → Prog (memSig K V) ε β}
    (h : Triple avail init P m R) (hk : ∀ a, Triple avail init (R a) (k a) Q) :
    Triple avail init P (m >>= k) Q := by
  intro s f hs hv
  refine Prog.awp_seq (h s f hs hv) ?_
  rintro a s' ⟨hv', q, hq, rfl⟩
  exact hk a q f hq hv'

theorem frame (h : Triple avail init P m Q) (F : Assn K V) : Triple avail init (P * F) m fun a => Q a * F := by
  rintro _ f ⟨s, hs, g, hg, rfl⟩ hv
  have hm : (fun x1 x2 => x1 * x2) s g * f = s * (g * f) := mul_assoc s g f
  rw [hm] at hv ⊢
  refine Prog.awp_mono (h s (g * f) hs hv) ?_
  rintro a s' ⟨hv', q, hq, rfl⟩
  exact ⟨hv', q * g, Set.mul_mem_mul hq hg, (mul_assoc q g f).symm⟩

theorem seq {Q : β → Assn K V} {R : α → Assn K V} {k : α → Prog (memSig K V) ε β} (F : Assn K V)
    (h : Triple avail init P m R) (hP : P' ⊆ P * F)
    (hk : ∀ a, Triple avail init (R a * F) (k a) Q) : Triple avail init P' (m >>= k) Q :=
  ((h.frame F).bind hk).pre hP

theorem ex {ι : Sort*} {P : ι → Assn K V} (h : ∀ i, Triple avail init (P i) m Q) :
    Triple avail init (⋃ i, P i) m Q := by
  intro s f hs
  obtain ⟨i, hi⟩ := Set.mem_iUnion.mp hs
  exact h i s f hi

theorem union (h : Triple avail init P m Q) (h' : Triple avail init P' m Q) : Triple avail init (P ∪ P') m Q := by
  intro s f hs
  cases hs with
  | inl hs => exact h s f hs
  | inr hs => exact h' s f hs

theorem know {φ : Prop} (hφ : ∀ h ∈ P, Valid h → φ) (h : φ → Triple avail init P m Q) : Triple avail init P m Q :=
  fun s f hs hv => h (hφ s hs hv.left) s f hs hv

theorem ite {c : Prop} [Decidable c] {m' : Prog (memSig K V) ε α} (h : c → Triple avail init P m Q)
    (h' : ¬c → Triple avail init P m' Q) : Triple avail init P (if c then m else m') Q := by
  by_cases hc : c
  · rw [if_pos hc]
    exact h hc
  · rw [if_neg hc]
    exact h' hc

end Triple

def cell (k : K) (v : V) : Assn K V := {single k v}

variable (avail init) in
theorem triple_alloc : Triple avail init (1 : Assn K V) (Prog.lift (S := memSig K V) .alloc : Prog _ ε _)
    fun (r : Option K) => match r with
      | none => 1
      | some k => ⋃ _ : avail k, cell k init := by
  rintro h f rfl hv
  refine Prog.awp_lift ⟨⟨hv, 1, rfl, rfl⟩, fun k hk he => ?_⟩
  refine ⟨valid_single_mul hv init he, single k init, Set.mem_iUnion.mpr ⟨hk, rfl⟩, ?_⟩
  rw [one_mul]

theorem triple_free (k : K) (v : V) : Triple avail init (cell k v)
    (Prog.lift (S := memSig K V) (.free k) : Prog _ ε _) fun _ => 1 := by
  rintro h f rfl hv
  refine Prog.awp_lift ⟨v, hv.mul_own (single_self k v), ?_⟩
  rw [erase_single_mul hv]
  exact ⟨hv.right, 1, rfl, (one_mul f).symm⟩

theorem triple_get (k : K) (v : V) : Triple avail init (cell k v)
    (Prog.lift (S := memSig K V) (.get k) : Prog _ ε _) fun (r : V) => ⋃ _ : r = v, cell k v := by
  rintro h f rfl hv
  exact Prog.awp_lift ⟨v, hv.mul_own (single_self k v), hv, _, Set.mem_iUnion.mpr ⟨rfl, rfl⟩, rfl⟩

theorem triple_put (k : K) (v : V) (g : V → V) : Triple avail init (cell k v)
    (Prog.lift (S := memSig K V) (.put k g) : Prog _ ε _) fun _ => cell k (g v) := by
  rintro h f rfl hv
  refine Prog.awp_lift ⟨v, hv.mul_own (single_self k v), ?_⟩
  rw [update_single_mul hv]
  exact ⟨valid_single_mul hv.right _ (hv.frame_empty (single_self k v)), _, rfl, rfl⟩

section Covers

variable {P : Assn K V} {Q : α → Assn K V} {m : Prog (memSig K V) ε α} {ks : List K}

def Covers (ks : List K) : Assn K V := {h | ∀ k ∈ ks, h k ≠ .empty}

theorem covers_update {h : Heap K V} (hks : h ∈ Covers ks) (k : K) (v : V) :
    update h k (.own v) ∈ Covers ks := by
  intro j hj
  by_cases hjk : j = k
  · rw [hjk, update_self]
    nofun
  · rw [update_of_ne hjk]
    exact hks j hj

def Keeps (a : MemAct K V) : Prop := ∀ k, a ≠ .free k

theorem memRule_covers {a : MemAct K V} {h : Heap K V} {R : a.Res → Heap K V → Prop}
    (hrule : memRule avail init a h R) (hfree : Keeps a) (hks : h ∈ Covers ks) :
    memRule avail init a h fun r h' => R r h' ∧ h' ∈ Covers ks := by
  cases a with
  | alloc =>
    refine ⟨⟨hrule.1, hks⟩, fun k hk he => ⟨hrule.2 k hk he, fun j hj => ?_⟩⟩
    rw [Pi.mul_apply, ne_eq, Cell.mul_eq_empty, not_and_or]
    exact .inr (hks j hj)
  | free k => exact absurd rfl (hfree k)
  | get k =>
    obtain ⟨v, hv, hR⟩ := hrule
    exact ⟨v, hv, hR, hks⟩
  | put k g =>
    obtain ⟨v, hv, hR⟩ := hrule
    exact ⟨v, hv, hR, covers_update hks k (g v)⟩

theorem Triple.keep (h : Triple avail init P m Q) (hall : m.All Keeps) (ks : List K) :
    Triple avail init (P ∩ Covers ks) m fun a => Q a ∩ Covers ks := by
  intro s f hs hv
  have hsim : Prog.Simulates (Prog.guarded (memRule avail init) fun a _ => Keeps a) (memRule avail init)
      fun t u : Heap K V => t = u ∧ u ∈ Covers ks := by
    rintro a t u R ⟨hrule, hfree⟩ ⟨rfl, hks⟩
    exact ⟨_, memRule_covers hrule hfree hks, fun r u' ⟨hR, hks'⟩ => ⟨u', hR, rfl, hks'⟩⟩
  have hguard := Prog.awp_guard (V := fun a _ => Keeps a) (h s f hs.1 hv)
    (Prog.all_mono hall fun a ha _ => ha)
  have hcov : s * f ∈ Covers ks := by
    intro k hk
    rw [Pi.mul_apply, ne_eq, Cell.mul_eq_empty, not_and_or]
    exact .inl (hs.2 k hk)
  refine Prog.awp_mono (Prog.awp_simulate hsim hguard ⟨rfl, hcov⟩) ?_
  rintro a _ ⟨_, ⟨hv', q, hq, rfl⟩, rfl, hks⟩
  refine ⟨hv', q, ⟨hq, fun k hk => ?_⟩, rfl⟩
  obtain ⟨v, hown⟩ := hv.left.owned (hs.2 k hk)
  have hf := hv.frame_empty hown
  have hne := hks k hk
  rwa [Pi.mul_apply, hf, Cell.mul_empty] at hne

end Covers

section Reads

variable {P : Assn K V} {Q : α → Assn K V} {m : Prog (memSig K V) ε α}

def Reads (a : MemAct K V) : Prop := ∃ k, a = .get k

theorem Triple.readonly (h : Triple avail init P m Q) (hall : m.All Reads) {t : Heap K V} (ht : t ∈ P) :
    Triple avail init {t} m fun a => {t} ∩ Q a := by
  rintro s f rfl hv
  have hsim : Prog.Simulates (Prog.guarded (memRule avail init) fun a _ => Reads a) (memRule avail init)
      fun t u : Heap K V => t = u ∧ u = s * f := by
    rintro a t u R ⟨hrule, k, rfl⟩ ⟨rfl, hu⟩
    obtain ⟨v, hk, hR⟩ := hrule
    exact ⟨fun r u' => R r u' ∧ u' = s * f, ⟨v, hk, hR, hu⟩, fun r u' ⟨hr, hu'⟩ => ⟨u', hr, rfl, hu'⟩⟩
  have hguard := Prog.awp_guard (V := fun a _ => Reads a) (h s f ht hv) (Prog.all_mono hall fun a ha _ => ha)
  refine Prog.awp_mono (Prog.awp_simulate hsim hguard ⟨rfl, rfl⟩) ?_
  rintro a _ ⟨_, ⟨hv', q, hq, rfl⟩, rfl, he⟩
  obtain rfl := hv.cancel he
  exact ⟨hv', q, ⟨rfl, hq⟩, rfl⟩

end Reads

end Triple

end Sep
