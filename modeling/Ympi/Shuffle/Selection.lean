import Ympi.Shuffle.Topology

/-! # What the scans find

Both scans of the sorted node numbers go over the boards one after another: the first one
collects their sizes, and the second one counts those that are large enough, marks the
beginning of each and stops when it has found enough of them.
-/

namespace Ympi.Shuffle

open Foundation

/-- The first scan collects the sizes of the runs. -/
theorem scanBoards_eq (sizes : List ℕ) (begin last : ℕ) (run rest : List ℕ)
    (room : sizes.length + (runsFrom boardId run last rest).length ≤ maxNumBoard) :
    scanBoards sizes begin (begin + run.length) last rest =
      .ok (sizes ++ (runsFrom boardId run last rest).map List.length) := by
  induction rest generalizing sizes begin last run with
  | nil =>
      rw [runsFrom, List.length_singleton] at room
      rw [scanBoards, storeBoard, if_pos (by omega), Nat.add_sub_cancel_left]
      rfl
  | cons cpuid rest ih =>
      rw [runsFrom] at room ⊢
      rw [scanBoards]
      split at room
      next apart =>
        rw [List.length_cons] at room
        rw [if_pos apart, if_pos apart, storeBoard, if_pos (by omega), Nat.add_sub_cancel_left]
        have later := ih (sizes ++ [run.length]) (begin + run.length) (boardId cpuid) [cpuid] (by
          rw [List.length_append, List.length_singleton]
          omega)
        rw [List.append_assoc] at later
        exact later
      next equal =>
        rw [if_neg equal, if_neg equal]
        have later := ih sizes begin last (run ++ [cpuid]) room
        rw [List.length_append] at later
        exact later

/-- When the first scan ends there was room for the sizes of all runs. -/
theorem scanBoards_eq_ok {sizes scanned : List ℕ} {begin last : ℕ} {run rest : List ℕ}
    (done : scanBoards sizes begin (begin + run.length) last rest = .ok scanned) :
    sizes.length + (runsFrom boardId run last rest).length ≤ maxNumBoard ∧
      scanned = sizes ++ (runsFrom boardId run last rest).map List.length := by
  induction rest generalizing sizes begin last run with
  | nil =>
      rw [scanBoards, storeBoard] at done
      split at done
      next room =>
        cases done
        rw [Nat.add_sub_cancel_left]
        exact ⟨room, rfl⟩
      next => cases done
  | cons cpuid rest ih =>
      rw [scanBoards] at done
      rw [runsFrom]
      split at done
      next apart =>
        rw [storeBoard] at done
        split at done
        next room =>
          obtain ⟨later, rfl⟩ := @ih _ (begin + run.length) (boardId cpuid) [cpuid] done
          rw [List.length_append, List.length_singleton, Nat.add_sub_cancel_left] at *
          rw [if_pos apart, List.length_cons, List.append_assoc]
          exact ⟨by omega, rfl⟩
        next => cases done
      next equal =>
        rw [if_neg equal]
        apply ih
        rw [List.length_append]
        exact done

section Select

variable {boardSize targetNumBoard myCpuid : ℕ}

/-- The second scan over the runs: `current_num_board` and `selected` after it. -/
def selectRuns (boardSize targetNumBoard myCpuid : ℕ) (current : ℕ) (selected : Bool) :
    List (List ℕ) → ℕ × Bool
  | [] => (current, selected)
  | run :: rest =>
      if current < targetNumBoard ∧ boardSize ≤ run.length then
        selectRuns boardSize targetNumBoard myCpuid (current + 1)
          (selected || (run.take boardSize).contains myCpuid) rest
      else selectRuns boardSize targetNumBoard myCpuid current selected rest

/-- With enough boards nothing changes any more. -/
theorem selectRuns_full {current : ℕ} (full : current = targetNumBoard) (selected : Bool)
    (runs : List (List ℕ)) :
    selectRuns boardSize targetNumBoard myCpuid current selected runs = (current, selected) := by
  induction runs with
  | nil => rfl
  | cons run rest ih =>
      rw [selectRuns, if_neg (by omega)]
      exact ih

/-- The marked entries are those of a run that is long enough. -/
theorem marks_run {list front run rest : List ℕ} (whole : list = front ++ run ++ rest)
    (long : boardSize ≤ run.length) :
    marks list myCpuid front.length boardSize = (run.take boardSize).contains myCpuid := by
  rw [marks, whole, List.append_assoc, List.drop_left, List.take_append_of_le_length long]

/-- The second scan goes over the runs. -/
theorem scanSelected_eq {list : List ℕ} (front run rest : List ℕ) (last current : ℕ)
    (selected : Bool) (whole : list = front ++ run ++ rest) (few : current < targetNumBoard) :
    finishSelect list myCpuid boardSize targetNumBoard
        (scanSelected list myCpuid boardSize targetNumBoard front.length
          (front.length + run.length) last current selected rest) =
      selectRuns boardSize targetNumBoard myCpuid current selected
        (runsFrom boardId run last rest) := by
  induction rest generalizing front run last current selected with
  | nil =>
      have length : list.length - front.length = run.length := by
        rw [whole, List.append_nil, List.length_append, Nat.add_sub_cancel_left]
      rw [scanSelected, finishSelect, length, runsFrom, selectRuns]
      split
      next both => rw [marks_run whole both.2, selectRuns]
      next => rw [selectRuns]
  | cons cpuid rest ih =>
      rw [scanSelected, runsFrom, Nat.add_sub_cancel_left]
      have shifted : list = (front ++ run) ++ [cpuid] ++ rest := by
        rw [whole]
        simp
      have next (current : ℕ) (selected : Bool) (few : current < targetNumBoard) :=
        ih (front ++ run) [cpuid] (boardId cpuid) current selected shifted few
      simp only [List.length_append, List.length_singleton] at next
      by_cases apart : boardId cpuid ≠ last
      · rw [if_pos apart, if_pos apart, selectRuns]
        by_cases long : boardSize ≤ run.length
        · have large : current < targetNumBoard ∧ boardSize ≤ run.length := ⟨few, long⟩
          rw [if_pos long, if_pos large, marks_run whole long]
          by_cases full : current + 1 = targetNumBoard
          · rw [if_pos full, selectRuns_full full, finishSelect, if_neg (by omega)]
          · rw [if_neg full]
            exact next (current + 1) _ (by omega)
        · rw [if_neg long, if_neg (fun both => long both.2)]
          exact next current selected few
      · rw [if_neg apart, if_neg apart]
        have later := ih front (run ++ [cpuid]) last current selected (by rw [whole]; simp) few
        rw [List.length_append] at later
        exact later

/-- The runs that are long enough, up to the number of boards looked for. -/
def largeRuns (boardSize count : ℕ) (runs : List (List ℕ)) : List (List ℕ) :=
  (runs.filter fun run => boardSize ≤ run.length).take count

/-- What the second scan finds. -/
theorem selectRuns_eq (runs : List (List ℕ)) (current : ℕ) (selected : Bool)
    (few : current ≤ targetNumBoard) :
    selectRuns boardSize targetNumBoard myCpuid current selected runs =
      (min targetNumBoard (current + runs.countP fun run => boardSize ≤ run.length),
        selected || (largeRuns boardSize (targetNumBoard - current) runs).any fun run =>
          (run.take boardSize).contains myCpuid) := by
  induction runs generalizing current selected with
  | nil => simp [selectRuns, largeRuns, few]
  | cons run rest ih =>
      rw [selectRuns]
      by_cases long : boardSize ≤ run.length
      · have counted : (run :: rest).countP (fun run => boardSize ≤ run.length) =
            rest.countP (fun run => boardSize ≤ run.length) + 1 :=
          List.countP_cons_of_pos (decide_eq_true long)
        rw [counted]
        by_cases more : current < targetNumBoard
        · obtain ⟨left, remaining⟩ : ∃ left, targetNumBoard - current = left + 1 :=
            ⟨targetNumBoard - current - 1, by omega⟩
          have next : targetNumBoard - (current + 1) = left := by omega
          have kept : (run :: rest).filter (fun run => boardSize ≤ run.length) =
              run :: rest.filter fun run => boardSize ≤ run.length :=
            List.filter_cons_of_pos (decide_eq_true long)
          rw [if_pos ⟨more, long⟩, ih _ _ (by omega), next, remaining, largeRuns, largeRuns, kept,
            List.take_succ_cons, List.any_cons, Bool.or_assoc, Nat.add_right_comm,
            ← Nat.add_assoc]
        · have full : current = targetNumBoard := by omega
          rw [if_neg (fun both => more both.1), selectRuns_full full, full, Nat.sub_self]
          simp [largeRuns]
      · have counted : (run :: rest).countP (fun run => boardSize ≤ run.length) =
            rest.countP fun run => boardSize ≤ run.length :=
          List.countP_cons_of_neg (by simpa using long)
        have dropped : (run :: rest).filter (fun run => boardSize ≤ run.length) =
            rest.filter fun run => boardSize ≤ run.length :=
          List.filter_cons_of_neg (by simpa using long)
        rw [if_neg (fun both => long both.2), ih _ _ few, counted, largeRuns, largeRuns, dropped]

/-- What the second scan finds in a list, if there are enough large runs. -/
theorem secondScan_eq {first : ℕ} {rest : List ℕ} (target : 0 < targetNumBoard)
    (enough : targetNumBoard ≤
      (runs boardId (first :: rest)).countP fun run => boardSize ≤ run.length) :
    finishSelect (first :: rest) myCpuid boardSize targetNumBoard
        (scanSelected (first :: rest) myCpuid boardSize targetNumBoard 0 1 (boardId first) 0
          false rest) =
      (targetNumBoard,
        (largeRuns boardSize targetNumBoard (runs boardId (first :: rest))).any fun run =>
          (run.take boardSize).contains myCpuid) := by
  have scanned : finishSelect (first :: rest) myCpuid boardSize targetNumBoard
      (scanSelected (first :: rest) myCpuid boardSize targetNumBoard 0 1 (boardId first) 0
        false rest) = _ :=
    scanSelected_eq [] [first] rest (boardId first) 0 false rfl target
  have listed : runsFrom boardId [first] (boardId first) rest = runs boardId (first :: rest) :=
    rfl
  rw [listed, selectRuns_eq _ _ _ (Nat.zero_le _), Nat.zero_add, Nat.sub_zero, Bool.false_or,
    min_eq_left enough] at scanned
  exact scanned

/-- **Selection.** If there are enough large runs a process is selected exactly when its
node number is marked in one of the first of them. -/
theorem select_ok {list : List ℕ} (some : list ≠ []) (target : 0 < targetNumBoard)
    (enough : targetNumBoard ≤ (runs boardId list).countP fun run => boardSize ≤ run.length) :
    select list myCpuid boardSize targetNumBoard =
      .ok ((largeRuns boardSize targetNumBoard (runs boardId list)).any fun run =>
        (run.take boardSize).contains myCpuid) := by
  cases list with
  | nil => exact absurd rfl some
  | cons first rest =>
      change (if (finishSelect _ _ _ _ _).1 ≠ _ then _ else Except.ok (finishSelect _ _ _ _ _).2) = _
      rw [secondScan_eq target enough, if_neg (fun differs => differs rfl)]

end Select

section Shape

/-- The lookup succeeds for every number of processes or boards. -/
theorem lookupFactorized_ok {number : ℕ} (positive : 1 ≤ number) (below : number < 163840) :
    ∃ entry, lookupFactorized number = .ok entry ∧ 0 < entry.number ∧ entry.number ≤ number := by
  obtain ⟨entry, member, found, bounded⟩ := findLargestNoLargerThan_ok positive below
  refine ⟨entry, ?_, factorized_pos entry member, bounded⟩
  rw [lookupFactorized, found]

theorem lookupFactorized_mem {number : ℕ} {entry : Factorized}
    (found : lookupFactorized number = .ok entry) :
    entry ∈ factorized ∧ entry.number ≤ number := by
  rw [lookupFactorized, findLargestNoLargerThan] at found
  split at found
  next entry' looked =>
    cases found
    rcases findLargestFrom_some looked with impossible | inside
    · cases impossible
    · exact inside
  next => cases found

theorem lookupFactorized_eq_ok {number : ℕ} {entry : Factorized}
    (found : lookupFactorized number = .ok entry) : entry.Exact ∧ entry.number ≤ number :=
  ⟨factorized_exact entry (lookupFactorized_mem found).1, (lookupFactorized_mem found).2⟩

/-- The chosen size is that of a board, or the one chosen before. -/
theorem chooseBoardSize_mem (maxNp boardSize : ℕ) (sizes : List ℕ) :
    (chooseBoardSize maxNp boardSize sizes).2 ∈ sizes ∨
      chooseBoardSize maxNp boardSize sizes = (maxNp, boardSize) := by
  induction sizes generalizing maxNp boardSize with
  | nil => exact Or.inr rfl
  | cons size rest ih =>
      rw [chooseBoardSize]
      split
      · rcases ih (size * (rest.length + 1)) size with member | kept
        · exact Or.inl (List.mem_cons_of_mem _ member)
        · rw [kept]
          exact Or.inl List.mem_cons_self
      · rcases ih maxNp boardSize with member | kept
        · exact Or.inl (List.mem_cons_of_mem _ member)
        · exact Or.inr kept

/-- The size of some board is chosen. -/
theorem chosen_mem {sizes : List ℕ} (some : sizes ≠ []) (positive : ∀ size ∈ sizes, 0 < size) :
    (chooseBoardSize 0 0 sizes).2 ∈ sizes := by
  obtain ⟨size, rest, rfl⟩ := List.exists_cons_of_ne_nil some
  have here := positive size List.mem_cons_self
  have product : size * (rest.length + 1) > 0 := Nat.mul_pos here (Nat.succ_pos _)
  rw [chooseBoardSize, if_pos product]
  rcases chooseBoardSize_mem (size * (rest.length + 1)) size rest with member | kept
  · exact List.mem_cons_of_mem _ member
  · rw [kept]
    exact List.mem_cons_self

/-- The shape that two lookups give. -/
theorem chooseShape_of_lookups {sizes : List ℕ} {entry boards : Factorized}
    (found : lookupFactorized ((chooseBoardSize 0 0 sizes).2 / 4) = .ok entry)
    (found' : lookupFactorized (sizes.countP fun size => entry.number * 4 ≤ size) = .ok boards) :
    chooseShape sizes = .ok {
      numBoard := boards.number
      numBoardFactorized := boards
      boardSize := entry.number * 4
      boardSizeFactorized := ⟨entry.number * 4, { entry.factor with n0 := entry.factor.n0 + 2 }⟩ } := by
  simp only [chooseShape, found, found', bind, Except.bind, pure, Except.pure]

/-- Both lookups succeed if the chosen size is not too small. -/
theorem lookups_ok {sizes : List ℕ} (few : sizes.length ≤ maxNumBoard)
    (member : (chooseBoardSize 0 0 sizes).2 ∈ sizes) (large : 4 ≤ (chooseBoardSize 0 0 sizes).2)
    (small : (chooseBoardSize 0 0 sizes).2 ≤ maxNprocs) :
    ∃ entry boards, lookupFactorized ((chooseBoardSize 0 0 sizes).2 / 4) = .ok entry ∧
      0 < entry.number ∧
      lookupFactorized (sizes.countP fun size => entry.number * 4 ≤ size) = .ok boards ∧
      0 < boards.number ∧
      boards.number ≤ sizes.countP fun size => entry.number * 4 ≤ size := by
  rw [maxNprocs] at small
  rw [maxNumBoard] at few
  obtain ⟨entry, found, positive, bounded⟩ :=
    @lookupFactorized_ok ((chooseBoardSize 0 0 sizes).2 / 4) (by omega) (by omega)
  have counted : 0 < sizes.countP fun size => entry.number * 4 ≤ size := by
    rw [List.countP_pos_iff]
    exact ⟨_, member, decide_eq_true (by omega)⟩
  have most : (sizes.countP fun size => entry.number * 4 ≤ size) ≤ sizes.length :=
    List.countP_le_length
  obtain ⟨boards, found', positive', bounded'⟩ := lookupFactorized_ok counted (by omega)
  exact ⟨entry, boards, found, positive, found', positive', bounded'⟩

/-- **The chosen shape.** The board size is a multiple of four, and there are as many
boards with so many processes as the number of boards says. -/
theorem chooseShape_ok {sizes : List ℕ} (few : sizes.length ≤ maxNumBoard)
    (member : (chooseBoardSize 0 0 sizes).2 ∈ sizes) (large : 4 ≤ (chooseBoardSize 0 0 sizes).2)
    (small : (chooseBoardSize 0 0 sizes).2 ≤ maxNprocs) :
    ∃ shape, chooseShape sizes = .ok shape ∧ 4 ∣ shape.boardSize ∧ 0 < shape.boardSize ∧
      0 < shape.numBoard ∧
      shape.numBoard ≤ sizes.countP fun size => shape.boardSize ≤ size := by
  obtain ⟨entry, boards, found, positive, found', positive', bounded'⟩ :=
    lookups_ok few member large small
  refine ⟨_, chooseShape_of_lookups found found', Nat.dvd_mul_left _ _, ?_, positive', bounded'⟩
  simp only
  omega

/-- A shape that was chosen comes from two lookups. -/
theorem exists_lookups {sizes : List ℕ} {shape : BoardShape}
    (chosen : chooseShape sizes = .ok shape) : ∃ entry boards,
      lookupFactorized ((chooseBoardSize 0 0 sizes).2 / 4) = .ok entry ∧
      lookupFactorized (sizes.countP fun size => entry.number * 4 ≤ size) = .ok boards ∧
      shape = {
        numBoard := boards.number
        numBoardFactorized := boards
        boardSize := entry.number * 4
        boardSizeFactorized :=
          ⟨entry.number * 4, { entry.factor with n0 := entry.factor.n0 + 2 }⟩ } := by
  rw [chooseShape] at chosen
  obtain ⟨entry, places, chosen⟩ := exists_of_bind_ok chosen
  obtain ⟨boards, found, chosen⟩ := exists_of_bind_ok chosen
  cases chosen
  exact ⟨entry, boards, places, found, rfl⟩

/-- A shape that was chosen is factored, and there are enough boards of its size. -/
theorem chooseShape_eq_ok {sizes : List ℕ} {shape : BoardShape}
    (chosen : chooseShape sizes = .ok shape) : shape.Factored ∧
      shape.numBoard ≤ sizes.countP fun size => shape.boardSize ≤ size := by
  obtain ⟨entry, boards, places, found, rfl⟩ := exists_lookups chosen
  obtain ⟨exact, few⟩ := lookupFactorized_eq_ok found
  refine ⟨⟨exact, ?_⟩, few⟩
  have product : entry.number = entry.factor.product := (lookupFactorized_eq_ok places).1
  simp only [product, Factor.product, Nat.pow_add]
  rw [Nat.mul_right_comm _ (2 ^ 2), Nat.mul_right_comm _ (2 ^ 2)]

end Shape

end Ympi.Shuffle
