import NarrowVec.Proofs.VectorLaws

/-!
# Scans of containers

Every call on an iterator answers what a deque of the elements answers.  What callers rely on
follows from this: sizes are exact, the two ends meet without handing out an element twice or
leaving one out, to skip elements is to take them and to forget them, and a walk that has ended
stays at its end.
-/

set_option autoImplicit false

namespace NarrowVec

namespace Scan

variable {values : List Word}

def left (values : List Word) : List Call → List Word
  | [] => values
  | call :: rest => left (call.onDeque values).2 rest

theorem onDeque_append (calls later : List Call) :
    ∀ values, onDeque values (calls ++ later) =
      onDeque values calls ++ onDeque (left values calls) later := by
  induction calls with
  | nil =>
      intro values
      rfl
  | cons call rest ih =>
      intro values
      simp only [List.cons_append, onDeque, left, ih]

theorem length_onDeque (calls : List Call) :
    ∀ values, (onDeque values calls).length = calls.length := by
  induction calls with
  | nil =>
      intro values
      rfl
  | cons call rest ih =>
      intro values
      simp only [onDeque, List.length_cons, ih]

/-! ## The end of a walk -/

/-- The answer of a walk that has ended. -/
def Call.spent : Call → Answer
  | size => .size 0
  | count => .size 0
  | sizeBounds => .sizeBounds 0 0
  | rest => .items []
  | restDown => .items []
  | everyNth _ => .items []
  | _ => .item none

theorem strided_nil (k : Nat) : strided k [] = [] := by
  have hzero : Size.ceilDiv 0 k = 0 := by
    unfold Size.ceilDiv
    cases k with
    | zero => rfl
    | succ k => exact Nat.div_eq_of_lt (by omega)
  simp only [strided, List.length_nil, hzero]
  rfl

theorem Call.onDeque_nil (call : Call) : call.onDeque [] = (call.spent, []) := by
  cases call with
  | everyNth k => simp only [onDeque, strided_nil, spent]
  | popLowAfter n | popHighAfter n => simp only [onDeque, spent]; simp
  | _ => rfl

theorem onDeque_nil (calls : List Call) : onDeque [] calls = calls.map Call.spent := by
  induction calls with
  | nil => rfl
  | cons call rest ih => simp only [onDeque, Call.onDeque_nil, ih, List.map_cons]

theorem Call.left_of_none {call : Call} (h : (call.onDeque values).1 = .item none) :
    (call.onDeque values).2 = [] := by
  cases call with
  | popLow =>
      have hhead := List.head?_eq_none_iff.mp (Answer.item.inj h)
      simp only [onDeque, hhead, List.tail_nil]
  | popHigh =>
      have hlast := List.getLast?_eq_none_iff.mp (Answer.item.inj h)
      simp only [onDeque, hlast, List.dropLast_nil]
  | popLowAfter n =>
      have hlen := List.getElem?_eq_none_iff.mp (Answer.item.inj h)
      exact List.drop_of_length_le (by omega)
  | popHighAfter n =>
      have hlen := List.getElem?_eq_none_iff.mp (Answer.item.inj h)
      rw [List.length_reverse] at hlen
      have hzero : values.length - (n + 1) = 0 := by omega
      simp only [onDeque, hzero, List.take_zero]
  | last => exact List.getLast?_eq_none_iff.mp (Answer.item.inj h)
  | size | sizeBounds | rest | restDown | count | everyNth _ => cases h

/-! ## Where the two ends meet -/

/-- The call passes over elements without handing them out. -/
def Call.Skips : Call → Prop
  | popLowAfter n => 0 < n
  | popHighAfter n => 0 < n
  | _ => False

/-- What is left of a deque once a call has passed over the elements that it skips. -/
def Call.unskipped (values : List Word) : Call → List Word
  | popLowAfter n => values.drop n
  | popHighAfter n => values.take (values.length - n)
  | _ => values

def Call.handedLow : Call → Answer → List Word
  | popLow, .item value => value.toList
  | popLowAfter _, .item value => value.toList
  | _, _ => []

def Call.handedHigh : Call → Answer → List Word
  | popHigh, .item value => value.toList
  | popHighAfter _, .item value => value.toList
  | _, _ => []

/-- The elements handed out at the low end, first one first. -/
def lows (calls : List Call) (answers : List Answer) : List Word :=
  (List.zipWith Call.handedLow calls answers).flatten

def highs (calls : List Call) (answers : List Answer) : List Word :=
  (List.zipWith Call.handedHigh calls answers).flatten

theorem Call.unskipped_sublist (call : Call) (values : List Word) :
    (call.unskipped values).Sublist values := by
  cases call with
  | popLowAfter n => exact List.drop_sublist n values
  | popHighAfter n => exact List.take_sublist _ values
  | _ => exact List.Sublist.refl values

theorem Call.unskipped_of_not_skips {call : Call} (h : ¬call.Skips) (values : List Word) :
    call.unskipped values = values := by
  cases call with
  | popLowAfter n =>
      have hn : n = 0 := Nat.eq_zero_of_not_pos h
      rw [unskipped, hn, List.drop_zero]
  | popHighAfter n =>
      have hn : n = 0 := Nat.eq_zero_of_not_pos h
      rw [unskipped, hn, Nat.sub_zero, List.take_length]
  | _ => rfl

theorem getElem?_append_drop (values : List Word) (n : Nat) :
    values[n]?.toList ++ values.drop (n + 1) = values.drop n := by
  by_cases hn : n < values.length
  · rw [List.getElem?_eq_getElem hn, List.drop_eq_getElem_cons hn]
    rfl
  · rw [List.getElem?_eq_none (by omega), List.drop_of_length_le (by omega),
      List.drop_of_length_le (by omega)]
    rfl

theorem take_append_getElem? (values : List Word) (n : Nat) :
    values.take (values.length - (n + 1)) ++ values.reverse[n]?.toList =
      values.take (values.length - n) := by
  by_cases hn : n < values.length
  · have hsucc : values.length - n = values.length - (n + 1) + 1 := by omega
    have hindex : values.length - 1 - n = values.length - (n + 1) := by omega
    rw [List.getElem?_reverse hn, hsucc, hindex, List.take_add_one]
  · rw [List.getElem?_eq_none (by rw [List.length_reverse]; omega),
      Nat.sub_eq_zero_of_le (by omega), Nat.sub_eq_zero_of_le (by omega)]
    rfl

theorem head?_append_tail (values : List Word) : values.head?.toList ++ values.tail = values := by
  cases values <;> rfl

theorem dropLast_append_getLast? (values : List Word) :
    values.dropLast ++ values.getLast?.toList = values := by
  cases hlast : values.getLast? with
  | none => simp [List.getLast?_eq_none_iff.mp hlast]
  | some value =>
      obtain ⟨init, rfl⟩ := List.getLast?_eq_some_iff.mp hlast
      simp

/-- What one call hands out stood next to what it leaves. -/
theorem Call.handed_eq (call : Call) (values : List Word) :
    call.handedLow (call.onDeque values).1 ++ (call.onDeque values).2 ++
      call.handedHigh (call.onDeque values).1 = call.unskipped values := by
  cases call with
  | popLow =>
      simp only [onDeque, handedLow, handedHigh, List.append_nil]
      exact head?_append_tail values
  | popHigh => exact dropLast_append_getLast? values
  | popLowAfter n =>
      simp only [onDeque, handedLow, handedHigh, List.append_nil]
      exact getElem?_append_drop values n
  | popHighAfter n => exact take_append_getElem? values n
  | _ => exact List.append_nil _

theorem Call.reverse_handedHigh (call : Call) (answer : Answer) :
    (call.handedHigh answer).reverse = call.handedHigh answer := by
  unfold handedHigh
  split
  · rename_i value
    cases value <;> rfl
  · rename_i value
    cases value <;> rfl
  · rfl

/-- What a run hands out at the low end, what it leaves and, backwards, what it hands out at the
high end. -/
def pieces (values : List Word) (calls : List Call) : List Word :=
  lows calls (onDeque values calls) ++ left values calls ++
    (highs calls (onDeque values calls)).reverse

theorem pieces_cons (call : Call) (rest : List Call) (values : List Word) :
    pieces values (call :: rest) = call.handedLow (call.onDeque values).1 ++
      pieces (call.onDeque values).2 rest ++ call.handedHigh (call.onDeque values).1 := by
  simp only [pieces, lows, highs, left, onDeque, List.zipWith_cons_cons, List.flatten_cons,
    List.reverse_append, Call.reverse_handedHigh, List.append_assoc]

theorem pieces_sublist (calls : List Call) :
    ∀ values, (pieces values calls).Sublist values := by
  induction calls with
  | nil =>
      intro values
      simp [pieces, lows, highs, left, onDeque]
  | cons call rest ih =>
      intro values
      have hstep := call.unskipped_sublist values
      rw [← call.handed_eq] at hstep
      rw [pieces_cons]
      exact (((List.Sublist.refl _).append (ih _)).append (List.Sublist.refl _)).trans hstep

theorem pieces_eq (calls : List Call) :
    ∀ values, (∀ call ∈ calls, ¬call.Skips) → pieces values calls = values := by
  -- The pieces of the later calls lie between what the first call hands out at the two ends.
  induction calls with
  | nil =>
      intro values _
      simp [pieces, lows, highs, left, onDeque]
  | cons call rest ih =>
      intro values hskip
      have hrest := ih (call.onDeque values).2 fun other hother =>
        hskip other (List.mem_cons_of_mem call hother)
      rw [pieces_cons, hrest, call.handed_eq,
        Call.unskipped_of_not_skips (hskip call List.mem_cons_self)]

/-! ## Skipping -/

theorem left_popLows (n : Nat) :
    ∀ values, left values (List.replicate n .popLow) = values.drop n := by
  induction n with
  | zero =>
      intro values
      rfl
  | succ n ih =>
      intro values
      rw [List.replicate_succ, left, ih]
      simp only [Call.onDeque, List.drop_tail]

theorem left_popHighs (n : Nat) :
    ∀ values, left values (List.replicate n .popHigh) = values.take (values.length - n) := by
  induction n with
  | zero =>
      intro values
      rw [Nat.sub_zero, List.take_length]
      rfl
  | succ n ih =>
      intro values
      rw [List.replicate_succ, left, ih]
      simp only [Call.onDeque]
      rw [List.length_dropLast, List.dropLast_eq_take, List.take_take]
      congr 1
      omega

/-- A call that skips `n` elements before it takes one, by the call that takes one. -/
def Call.skips? : Call → Option (Nat × Call)
  | popLowAfter n => some (n, popLow)
  | popHighAfter n => some (n, popHigh)
  | _ => none

theorem onDeque_popHighAfter (values : List Word) (n : Nat) (later : List Call) :
    onDeque values (.popHighAfter n :: later) =
      onDeque (values.take (values.length - n)) (.popHigh :: later) := by
  have hanswer : values.reverse[n]? = (values.take (values.length - n)).getLast? := by
    rw [List.getLast?_eq_head?_reverse, List.reverse_take, List.head?_drop]
    by_cases hn : n ≤ values.length
    · rw [Nat.sub_sub_self hn]
    · rw [List.getElem?_eq_none (by rw [List.length_reverse]; omega),
        List.getElem?_eq_none (by rw [List.length_reverse]; omega)]
  have hrest : values.take (values.length - (n + 1)) =
      (values.take (values.length - n)).dropLast := by
    rw [List.dropLast_eq_take, List.length_take, List.take_take]
    congr 1
    omega
  simp only [onDeque, Call.onDeque, hanswer, hrest]

theorem onDeque_of_skips {call single : Call} {n : Nat} (h : call.skips? = some (n, single))
    (values : List Word) (later : List Call) :
    onDeque values (call :: later) =
      onDeque (left values (List.replicate n single)) (single :: later) := by
  cases call with
  | popLowAfter k =>
      cases h
      rw [left_popLows]
      simp only [onDeque, Call.onDeque, List.head?_drop, List.tail_drop]
  | popHighAfter k =>
      cases h
      rw [left_popHighs]
      exact onDeque_popHighAfter values _ later
  | _ => cases h

theorem Call.legal_of_skips {call single : Call} {n : Nat} (h : call.skips? = some (n, single)) :
    call.Legal ∧ single.Legal := by
  cases call with
  | popLowAfter k | popHighAfter k =>
      cases h
      exact ⟨trivial, trivial⟩
  | _ => cases h

end Scan

/-! ## Scans of containers -/

namespace Container

variable {σ : Type} [Container σ] {s : σ}

/-- Scans of a store are walks of a deque of its elements. -/
structure ScansAsDeque (s : σ) : Prop where
  answers : ∀ calls : List Scan.Call, (∀ call ∈ calls, call.Legal) →
    scan s calls = .ok (Scan.onDeque (Storage.toList s) calls)
  sizes : ∀ calls : List Scan.Call, (∀ call ∈ calls, call.Legal) → ∃ answers rest,
    scan s (calls ++ [.size, .sizeBounds, .count, .rest]) =
      .ok (answers ++ [.size rest.length, .sizeBounds rest.length rest.length,
        .size rest.length, .items rest])
  /-- The two ends meet: no element is handed out twice, and none is left out but by skipping. -/
  meet : ∀ calls : List Scan.Call, (∀ call ∈ calls, call.Legal) → ∃ answers rest,
    scan s (calls ++ [.rest]) = .ok (answers ++ [.items rest]) ∧
      answers.length = calls.length ∧
      (Scan.lows calls answers ++ rest ++ (Scan.highs calls answers).reverse).Sublist
        (Storage.toList s) ∧
      ((∀ call ∈ calls, ¬call.Skips) →
        Scan.lows calls answers ++ rest ++ (Scan.highs calls answers).reverse = Storage.toList s)
  skip : ∀ {call single : Scan.Call} {n : Nat}, call.skips? = some (n, single) →
    ∀ calls later : List Scan.Call, (∀ other ∈ calls ++ later, other.Legal) →
      ∃ before skipped after, before.length = calls.length ∧ skipped.length = n ∧
        scan s (calls ++ call :: later) = .ok (before ++ after) ∧
        scan s (calls ++ (List.replicate n single ++ single :: later)) =
          .ok (before ++ (skipped ++ after))
  /-- Once there is no element to answer, there is none to the end. -/
  spent : ∀ (calls : List Scan.Call) (call : Scan.Call) (later : List Scan.Call),
    (∀ other ∈ calls ++ call :: later, other.Legal) → ∃ before answer after,
      scan s (calls ++ call :: later) = .ok (before ++ answer :: after) ∧
        before.length = calls.length ∧
        (answer = .item none → after = later.map Scan.Call.spent)

theorem scansAsDeque_of_answers (h : ∀ calls : List Scan.Call, (∀ call ∈ calls, call.Legal) →
    scan s calls = .ok (Scan.onDeque (Storage.toList s) calls)) : ScansAsDeque s where
  answers := h
  sizes calls hcalls := by
    refine ⟨Scan.onDeque (Storage.toList s) calls, Scan.left (Storage.toList s) calls, ?_⟩
    rw [h, Scan.onDeque_append]
    · rfl
    · exact List.forall_mem_append.mpr ⟨hcalls, by simp [Scan.Call.Legal]⟩
  meet calls hcalls := by
    refine ⟨Scan.onDeque (Storage.toList s) calls, Scan.left (Storage.toList s) calls, ?_,
      Scan.length_onDeque calls _, Scan.pieces_sublist calls _, Scan.pieces_eq calls _⟩
    rw [h, Scan.onDeque_append]
    · rfl
    · exact List.forall_mem_append.mpr ⟨hcalls, List.forall_mem_singleton.mpr trivial⟩
  skip {call single n} hskip calls later hlegal := by
    obtain ⟨hcalls, hlater⟩ := List.forall_mem_append.mp hlegal
    obtain ⟨hcall, hsingle⟩ := Scan.Call.legal_of_skips hskip
    have hmany : ∀ other ∈ List.replicate n single, other.Legal := fun other hother =>
      List.eq_of_mem_replicate hother ▸ hsingle
    refine ⟨Scan.onDeque (Storage.toList s) calls,
      Scan.onDeque (Scan.left (Storage.toList s) calls) (List.replicate n single),
      Scan.onDeque (Scan.left (Scan.left (Storage.toList s) calls) (List.replicate n single))
        (single :: later), Scan.length_onDeque calls _,
      (Scan.length_onDeque _ _).trans List.length_replicate, ?_, ?_⟩
    · rw [h, Scan.onDeque_append, Scan.onDeque_of_skips hskip]
      exact List.forall_mem_append.mpr ⟨hcalls, List.forall_mem_cons.mpr ⟨hcall, hlater⟩⟩
    · rw [h, Scan.onDeque_append, Scan.onDeque_append]
      exact List.forall_mem_append.mpr ⟨hcalls, List.forall_mem_append.mpr
        ⟨hmany, List.forall_mem_cons.mpr ⟨hsingle, hlater⟩⟩⟩
  spent calls call later hlegal := by
    refine ⟨Scan.onDeque (Storage.toList s) calls,
      (call.onDeque (Scan.left (Storage.toList s) calls)).1,
      Scan.onDeque (call.onDeque (Scan.left (Storage.toList s) calls)).2 later, ?_,
      Scan.length_onDeque calls _, ?_⟩
    · rw [h _ hlegal, Scan.onDeque_append, Scan.onDeque]
    · intro hnone
      rw [Scan.Call.left_of_none hnone, Scan.onDeque_nil]

end Container

/-- Dense stores and vectors with any history are scanned as deques of their elements. -/
theorem scans_as_deques (w : Width) :
    (∀ d : Dense w, d.WellFormed → w.Roomy d.size → Container.ScansAsDeque d) ∧
    ∀ v : UIntVec w, v.Reachable → w.Roomy (Storage.size v) → Container.ScansAsDeque v :=
  ⟨fun _ hd hroom => Container.scansAsDeque_of_answers fun _ => Dense.scan_spec hd hroom,
    fun _ hv hroom => Container.scansAsDeque_of_answers fun _ =>
      UIntVec.scan_spec hv.canonical hroom⟩

theorem scans_as_deques_of_stale :
    Container.ScansAsDeque Dense.stale ∧
      Container.ScansAsDeque (UIntVec.dense (w := { bits := 7 }) ⟨#[5], 1, 1⟩) := by
  have hpushed : UIntVec.Reachable (.dense (w := { bits := 7 }) ⟨#[5], 1, 1⟩) :=
    UIntVec.reachable_of_push 5 rfl
  have hscans := scans_as_deques { bits := 7 }
  exact ⟨hscans.1 _ rfl (by decide), hscans.2 _ hpushed (by decide)⟩

end NarrowVec
