import NarrowVec.Container.Op
import NarrowVec.Proofs.Walks

/-!
# Equality, order and hash

Dense storage is compared for equality on whole words with the padding of the last one masked away,
and for order and hash element by element.  Both see the list of elements and nothing else.
-/

set_option autoImplicit false

namespace NarrowVec

/-! ## The order of lists -/

/-- The lexicographic order of lists of unsigned numbers; a proper beginning is smaller. -/
def Word.LexLt (values others : List Word) : Prop :=
  List.Lex (fun a b => a.toNat < b.toNat) values others

namespace Word

theorem compare_eq_lt_iff {a b : Word} : Ord.compare a b = .lt ↔ a.toNat < b.toNat := by
  show compareOfLessAndEq a b = .lt ↔ _
  rw [compareOfLessAndEq_eq_lt]
  exact BitVec.lt_def

theorem lexLt_cons_iff {a b : Word} {values others : List Word} :
    LexLt (a :: values) (b :: others) ↔ a.toNat < b.toNat ∨ a = b ∧ LexLt values others := by
  constructor
  · intro h
    cases h with
    | rel hlt => exact .inl hlt
    | cons hlex => exact .inr ⟨rfl, hlex⟩
  · rintro (hlt | ⟨rfl, hlex⟩)
    · exact List.Lex.rel hlt
    · exact List.Lex.cons hlex

theorem compare_lists_eq_lt_iff (values : List Word) :
    ∀ others : List Word, Ord.compare values others = .lt ↔ LexLt values others := by
  induction values with
  | nil =>
      intro others
      cases others with
      | nil =>
          constructor
          · intro h
            cases h
          · intro h
            cases h
      | cons b others => exact ⟨fun _ => List.Lex.nil, fun _ => rfl⟩
  | cons a values ih =>
      intro others
      cases others with
      | nil =>
          constructor
          · intro h
            cases h
          · intro h
            cases h
      | cons b others =>
          rw [List.compare_cons_cons, Ordering.then_eq_lt, compare_eq_lt_iff,
            Std.LawfulEqOrd.compare_eq_iff_eq, ih others, lexLt_cons_iff]

theorem compare_lists_eq_gt_iff (values others : List Word) :
    Ord.compare values others = .gt ↔ LexLt others values := by
  rw [Std.OrientedOrd.eq_swap, Ordering.swap_eq_gt, compare_lists_eq_lt_iff]

end Word

/-! ## Comparing containers -/

/-- Equality, order and hash of two containers are those of their elements. -/
structure Container.Compared {σ : Type} [Container σ] (s t : σ) : Prop where
  equal : ∃ same, Container.equal s t = .ok same ∧
    (same = true ↔ Storage.toList s = Storage.toList t)
  order : ∃ order, Container.compare s t = .ok order ∧
    (order = .eq ↔ Storage.toList s = Storage.toList t) ∧
    (order = .lt ↔ Word.LexLt (Storage.toList s) (Storage.toList t)) ∧
    (order = .gt ↔ Word.LexLt (Storage.toList t) (Storage.toList s))
  less : ∃ less, (Container.Op.run ⟨s, t⟩ .less).result = .ok (.flag less, ⟨s, t⟩) ∧
    (less = true ↔ Word.LexLt (Storage.toList s) (Storage.toList t))
  hashed : ∃ parts others, Container.hashed s = .ok parts ∧ Container.hashed t = .ok others ∧
    (parts = others ↔ Storage.toList s = Storage.toList t)

section Compared

variable {σ : Type} [Container σ] {s t : σ}

theorem Container.compare_of_entries (hs : entries s = .ok (Storage.toList s))
    (ht : entries t = .ok (Storage.toList t)) :
    compare s t = .ok (Ord.compare (Storage.toList s) (Storage.toList t)) := by
  simp only [compare]
  rw [bind_of_ok hs, bind_of_ok ht]
  rfl

theorem Container.hashed_of_entries (hs : entries s = .ok (Storage.toList s)) :
    hashed s = .ok (.size (Storage.size s) :: (Storage.toList s).map .word) := by
  simp only [hashed]
  rw [bind_of_ok hs]
  rfl

theorem Container.compared_of_entries (hs : entries s = .ok (Storage.toList s))
    (ht : entries t = .ok (Storage.toList t))
    (hequal : equal s t = .ok (decide (Storage.toList s = Storage.toList t)))
    (hsize : Storage.toList s = Storage.toList t → Storage.size s = Storage.size t) :
    Compared s t where
  equal := ⟨_, hequal, decide_eq_true_iff⟩
  order := ⟨_, compare_of_entries hs ht, Std.LawfulEqOrd.compare_eq_iff_eq,
    Word.compare_lists_eq_lt_iff _ _, Word.compare_lists_eq_gt_iff _ _⟩
  less := by
    refine ⟨_, Traced.result_lift_of_ok (compare_of_entries hs ht), ?_⟩
    rw [Ordering.isLT_iff_eq_lt]
    exact Word.compare_lists_eq_lt_iff _ _
  hashed := by
    refine ⟨_, _, hashed_of_entries hs, hashed_of_entries ht, ?_⟩
    rw [List.cons_eq_cons, Hashed.size.injEq,
      List.map_inj_right fun _ _ heq => Hashed.word.inj heq]
    exact ⟨And.right, fun heq => ⟨hsize heq, heq⟩⟩

end Compared

/-! ## Words without their padding -/

namespace Words

variable {words words' : Words} {n : Nat}

theorem masked_eq_zero_iff {left right : Word} (hn : n ≤ 64) :
    (left ^^^ right) &&& Word.mask n = 0 ↔ ∀ j, j < n → left.getLsbD j = right.getLsbD j := by
  constructor
  · intro h j hj
    have hbit := congrArg (BitVec.getLsbD · j) h
    have hmask : j < n ∧ j < 64 := ⟨hj, by omega⟩
    simp only [BitVec.getLsbD_and, BitVec.getLsbD_xor, Word.getLsbD_mask, decide_eq_true hmask,
      Bool.and_true] at hbit
    simpa using hbit
  · intro h
    apply BitVec.eq_of_getLsbD_eq
    intro j hj
    rw [BitVec.getLsbD_and, BitVec.getLsbD_xor, Word.getLsbD_mask]
    by_cases hlt : j < n
    · simp [h j hlt]
    · simp [hlt]

theorem take_eq_take_iff (h : n ≤ words.size) (h' : n ≤ words'.size) :
    words.take n = words'.take n ↔ ∀ p, p < 64 * n → words.bit p = words'.bit p := by
  rw [take_eq_resize h, take_eq_resize h']
  constructor
  · intro heq p hp
    have hbit := congrArg (Words.bit · p) heq
    simpa [bit_resize, hp] using hbit
  · intro hbits
    refine eq_of_bit_eq (by rw [size_resize, size_resize]) fun p hp => ?_
    rw [size_resize] at hp
    rw [bit_resize, bit_resize, hbits p hp]

theorem masked_eq_iff {last : Nat} (hn : n ≤ 64) (h : last < words.size)
    (h' : last < words'.size) :
    (words.take last = words'.take last ∧
      (words.getD last 0 ^^^ words'.getD last 0) &&& Word.mask n = 0) ↔
      ∀ p, p < 64 * last + n → words.bit p = words'.bit p := by
  rw [take_eq_take_iff (Nat.le_of_lt h) (Nat.le_of_lt h'), masked_eq_zero_iff hn]
  constructor
  · rintro ⟨hwhole, hlow⟩ p hp
    by_cases hlt : p < 64 * last
    · exact hwhole p hlt
    · obtain ⟨j, rfl⟩ := Nat.exists_eq_add_of_le (Nat.not_lt.mp hlt)
      rw [bit_word words last (by omega), bit_word words' last (by omega)]
      exact hlow j (by omega)
  · intro hall
    refine ⟨fun p hp => hall p (by omega), fun j hj => ?_⟩
    rw [← bit_word words last (by omega), ← bit_word words' last (by omega)]
    exact hall _ (by omega)

end Words

/-! ## Dense storage -/

namespace Dense

variable {w : Width} {d e : Dense w}

theorem toList_eq_iff (hsize : d.size = e.size) :
    d.toList = e.toList ↔ ∀ p, p < d.size * w.bits → d.words.bit p = e.words.bit p := by
  constructor
  · intro h p hp
    have hi : p / w.bits < d.size := Nat.div_lt_of_lt_mul (by rw [Nat.mul_comm]; exact hp)
    have hslice : d.words.slice (p / w.bits * w.bits) w.bits =
        e.words.slice (p / w.bits * w.bits) w.bits := by
      have hget := congrArg (·[p / w.bits]?) h
      simp only [getElem?_toList hi, getElem?_toList (hsize ▸ hi)] at hget
      exact Option.some.inj hget
    have hbit := Words.bit_eq_of_slice_eq hslice w.le (Nat.mod_lt p w.pos)
    rwa [Nat.mul_comm, Nat.div_add_mod] at hbit
  · intro h
    rw [toList_eq_fields, toList_eq_fields, ← hsize]
    exact Words.fields_congr fun p _ hp => h p (by omega)

theorem words_eq_iff (hsize : d.size = e.size) (hwords : d.words.size = e.words.size)
    (hfull : d.size * w.bits = 64 * d.words.size) : d.words = e.words ↔ d.toList = e.toList := by
  rw [toList_eq_iff hsize, hfull]
  constructor
  · intro heq p _
    rw [heq]
  · exact Words.eq_of_bit_eq hwords

theorem masked_words_eq_iff {last occupied : Nat} (hsize : d.size = e.size)
    (hocc : occupied ≤ 64) (hlast : last < d.words.size) (hlast' : last < e.words.size)
    (hend : d.size * w.bits = 64 * last + occupied) :
    (d.words.take last = e.words.take last ∧
      (d.words.getD last 0 ^^^ e.words.getD last 0) &&& Word.mask occupied = 0) ↔
      d.toList = e.toList := by
  rw [toList_eq_iff hsize, hend]
  exact Words.masked_eq_iff hocc hlast hlast'

theorem equal_of_size_ne (hsize : d.size ≠ e.size) :
    d.equal e = .ok (decide (d.toList = e.toList)) := by
  have hne : d.toList ≠ e.toList := by
    intro heq
    apply hsize
    rw [← length_toList d, heq, length_toList]
  simp only [equal]
  rw [if_neg hsize, decide_eq_false hne]
  rfl

theorem equal_spec (h : d.WellFormed) (he : e.WellFormed) (hroom : w.Roomy d.size) :
    d.equal e = .ok (decide (d.toList = e.toList)) := by
  by_cases hsize : d.size = e.size
  · have hwords : d.words.size = e.words.size := by rw [h.words_size, he.words_size, hsize]
    have hle := h.size_mul_le
    have hlt := h.words_lt
    simp only [equal]
    rw [if_pos hsize, bind_of_ok (Size.mul_of_lt (h.roomy_iff.mp hroom)),
      bind_of_ok (Size.mul_of_lt h.countable), bind_of_ok h.spare]
    by_cases hfull : d.words.size * 64 - d.size * w.bits = 0
    · have heq := words_eq_iff hsize hwords (by omega)
      rw [if_pos hfull]
      simp only [← heq, Bool.beq_eq_decide_eq]
      rfl
    · have hlast : Size.sub d.words.size 1 = .ok (d.words.size - 1) := Size.sub_of_le (by omega)
      have hocc : Size.sub 64 (d.words.size * 64 - d.size * w.bits) =
          .ok (64 - (d.words.size * 64 - d.size * w.bits)) :=
        Size.sub_of_le (by omega)
      have hleft : d.words.size - 1 < d.words.size := by omega
      have hright : d.words.size - 1 < e.words.size := by omega
      have heq := masked_words_eq_iff hsize (Nat.sub_le 64 (d.words.size * 64 - d.size * w.bits))
        hleft hright (by omega)
      rw [if_neg hfull, bind_of_ok hlast, bind_of_ok hocc, bind_of_ok (Word.lowMask_eq _),
        bind_of_ok (Words.fetch_of_lt hleft), bind_of_ok (Words.fetch_of_lt hright)]
      simp only [← heq, Bool.decide_and, Bool.beq_eq_decide_eq]
      rfl
  · exact equal_of_size_ne hsize

theorem compared (h : d.WellFormed) (he : e.WellFormed) (hroom : w.Roomy d.size) :
    Container.Compared d e := by
  apply Container.compared_of_entries (entries_spec h) (entries_spec he) (equal_spec h he hroom)
  intro heq
  have hlength := congrArg List.length heq
  exact (length_toList d).symm.trans (hlength.trans (length_toList e))

end Dense

end NarrowVec
