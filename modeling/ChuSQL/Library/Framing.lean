import ChuSQL.Library.PartitionPoint

/-! Length-prefixed frames in a file: a little-endian length of four bytes, then
a body. Cutting the file at any byte leaves the frames entirely below the cut. -/

set_option autoImplicit false

namespace Library.Framing

instance byteBase : NeZero 256 := ⟨by decide⟩

def littleEndian : (width : Nat) → Nat → List (Fin 256)
  | 0, _ => []
  | width + 1, value => Fin.ofNat 256 value :: littleEndian width (value / 256)

def ofLittleEndian (bytes : List (Fin 256)) : Nat := Nat.ofDigits 256 (bytes.map Fin.val)

@[simp] theorem littleEndian_length (width value : Nat) :
    (littleEndian width value).length = width := by
  induction width generalizing value with
  | zero => rfl
  | succ width ih => simp [littleEndian, ih]

theorem ofLittleEndian_littleEndian {width value : Nat} (fits : value < 256 ^ width) :
    ofLittleEndian (littleEndian width value) = value := by
  induction width generalizing value with
  | zero =>
      have zero : value = 0 := by simpa using fits
      simp [zero, littleEndian, ofLittleEndian]
  | succ width ih =>
      have smaller : value / 256 < 256 ^ width := by
        rw [Nat.div_lt_iff_lt_mul (by decide)]
        simpa [Nat.pow_succ] using fits
      have rest := ih smaller
      simp only [ofLittleEndian, littleEndian, List.map_cons, Nat.ofDigits_cons] at rest ⊢
      rw [rest]
      exact Nat.mod_add_div value 256

/-- A value too large for its field is read back reduced. -/
theorem ofLittleEndian_mod (width value : Nat) :
    ofLittleEndian (littleEndian width value) = value % 256 ^ width := by
  induction width generalizing value with
  | zero => simp [littleEndian, ofLittleEndian, Nat.mod_one]
  | succ width ih =>
      have rest := ih (value / 256)
      simp only [ofLittleEndian, littleEndian, List.map_cons, Nat.ofDigits_cons] at rest ⊢
      rw [rest, Nat.pow_succ', Nat.mod_mul]
      rfl

variable {α ε : Type}

/-- A body behind its length. -/
def frame (body : List (Fin 256)) : List (Fin 256) := littleEndian 4 body.length ++ body

@[simp] theorem frame_length (body : List (Fin 256)) : (frame body).length = 4 + body.length := by
  simp [frame]

/-- Frames from an offset on, with the offsets where each starts and ends, up to
the first incomplete one; then the offset reached. A body that does not decode
fails the whole scan. -/
def scan (decode : List (Fin 256) → Except ε α) (bytes : List (Fin 256)) (offset : Nat) :
    Except ε (List (α × Nat × Nat) × Nat) :=
  if offset + 4 ≤ bytes.length then
    let bodyLen := ofLittleEndian ((bytes.drop offset).take 4)
    let stop := offset + 4 + bodyLen
    if stop > bytes.length then .ok ([], offset)
    else
      match decode ((bytes.drop (offset + 4)).take bodyLen) with
      | .ok item =>
          (scan decode bytes stop).map fun (frames, reached) => ((item, offset, stop) :: frames, reached)
      | .error error => .error error
  else .ok ([], offset)
termination_by bytes.length - offset

/-- The leading items whose sizes add up to at most a bound. -/
def whole (size : α → Nat) : Nat → List α → List α
  | _, [] => []
  | bound, item :: rest =>
      if size item ≤ bound then item :: whole size (bound - size item) rest else []

theorem whole_leading (size : α → Nat) (bound : Nat) (items : List α) :
    whole size bound items <+: items := by
  induction items generalizing bound with
  | nil => exact List.prefix_rfl
  | cons item rest ih =>
      simp only [whole]
      split
      · exact (List.prefix_cons_inj item).mpr (ih _)
      · exact List.nil_prefix

theorem whole_append (size : α → Nat) (bound : Nat) (first second : List α) :
    whole size bound (first ++ second) =
      if (first.map size).sum ≤ bound then first ++ whole size (bound - (first.map size).sum) second
      else whole size bound first := by
  induction first generalizing bound with
  | nil => simp
  | cons item first ih =>
      simp only [List.cons_append, whole, List.map_cons, List.sum_cons, ih]
      by_cases fits : size item ≤ bound
      · by_cases all : (first.map size).sum ≤ bound - size item
        · have total : size item + (first.map size).sum ≤ bound := by omega
          simp only [fits, all, total, if_true, Nat.sub_sub]
        · have total : ¬ size item + (first.map size).sum ≤ bound := by omega
          simp only [fits, all, total, if_true, if_false]
      · have total : ¬ size item + (first.map size).sum ≤ bound := by omega
        simp only [fits, total, if_false]

/-- Items with the offsets of their frames. -/
def located (size : α → Nat) : Nat → List α → List (α × Nat × Nat)
  | _, [] => []
  | offset, item :: rest => (item, offset, offset + size item) :: located size (offset + size item) rest

@[simp] theorem located_items (size : α → Nat) (offset : Nat) (items : List α) :
    (located size offset items).map (·.1) = items := by
  induction items generalizing offset with
  | nil => rfl
  | cons item rest ih => simp [located, ih]

theorem located_append (size : α → Nat) (offset : Nat) (first second : List α) :
    located size offset (first ++ second) =
      located size offset first ++ located size (offset + (first.map size).sum) second := by
  induction first generalizing offset with
  | nil => rfl
  | cons item first ih => simp only [List.cons_append, located, ih, List.map_cons, List.sum_cons, Nat.add_assoc]

section Cut

variable {decode : List (Fin 256) → Except ε α} {encode : α → List (Fin 256)}

/-- Bytes that break off before the frame they begin is complete. -/
def Incomplete (tail : List (Fin 256)) : Prop :=
  tail.length < 4 ∨ tail.length < 4 + ofLittleEndian (tail.take 4)

instance (tail : List (Fin 256)) : Decidable (Incomplete tail) :=
  inferInstanceAs (Decidable (_ ∨ _))

theorem incomplete_nil : Incomplete [] := .inl (by decide)

/-- A frame cut inside is incomplete. -/
theorem incomplete_take {body : List (Fin 256)} {cut : Nat} (encoded : body.length < 256 ^ 4)
    (inside : cut < 4 + body.length) : Incomplete ((frame body).take cut) := by
  by_cases short : cut < 4
  · refine .inl ?_
    rw [List.length_take]
    omega
  · refine .inr ?_
    have header : ((frame body).take cut).take 4 = littleEndian 4 body.length := by
      rw [List.take_take, Nat.min_eq_left (by omega), frame]
      exact List.take_left' (littleEndian_length _ _)
    rw [header, ofLittleEndian_littleEndian encoded, List.length_take]
    omega

/-- The scan ends at incomplete bytes. -/
theorem scan_incomplete (done : List (Fin 256)) {tail : List (Fin 256)} (torn : Incomplete tail) :
    scan decode (done ++ tail) done.length = .ok ([], done.length) := by
  rw [scan]
  split
  · rename_i header
    rw [List.length_append] at header
    have announced : (done ++ tail).length <
        done.length + 4 + ofLittleEndian (((done ++ tail).drop done.length).take 4) := by
      rw [List.drop_left, List.length_append]
      rcases torn with short | short <;> omega
    simp only [announced, if_true]
  · rfl

/-- One frame is read; then the scan goes on behind it. -/
theorem scan_frame (done : List (Fin 256)) {body tail : List (Fin 256)} (fits : body.length < 256 ^ 4) :
    scan decode (done ++ (frame body ++ tail)) done.length =
      match decode body with
      | .ok item =>
          (scan decode (done ++ (frame body ++ tail)) (done ++ frame body).length).map
            fun (frames, stop) => ((item, done.length, (done ++ frame body).length) :: frames, stop)
      | .error error => .error error := by
  have behind : (done ++ (frame body ++ tail)).drop done.length =
      littleEndian 4 body.length ++ (body ++ tail) := by
    rw [List.drop_left, frame, List.append_assoc]
  have lengthRead : ofLittleEndian (((done ++ (frame body ++ tail)).drop done.length).take 4) =
      body.length := by
    rw [behind, List.take_left' (littleEndian_length _ _), ofLittleEndian_littleEndian fits]
  have inner : ((done ++ (frame body ++ tail)).drop (done.length + 4)).take body.length = body := by
    rw [← List.drop_drop, behind, List.drop_left' (littleEndian_length _ _), List.take_left]
  have length : (done ++ (frame body ++ tail)).length = done.length + 4 + body.length + tail.length := by
    simp only [List.length_append, frame_length]
    omega
  have stop : (done ++ frame body).length = done.length + 4 + body.length := by
    rw [List.length_append, frame_length, Nat.add_assoc]
  rw [scan, if_pos (by omega)]
  simp only [lengthRead, inner, stop]
  rw [if_neg (by omega)]

/-- Whole frames are read one after the other; then the scan goes on behind them. -/
theorem scan_frames {items : List α} (decodes : ∀ item ∈ items, decode (encode item) = .ok item)
    (fits : ∀ item ∈ items, (encode item).length < 256 ^ 4) (done tail : List (Fin 256)) :
    let size := fun item => 4 + (encode item).length
    let reached := done ++ items.flatMap fun item => frame (encode item)
    scan decode (reached ++ tail) done.length =
      (scan decode (reached ++ tail) reached.length).map fun (frames, stop) =>
        (located size done.length items ++ frames, stop) := by
  intro size reached
  induction items generalizing done with
  | nil =>
      simp only [reached, List.flatMap_nil, List.append_nil, located, List.nil_append]
      cases scan decode (done ++ tail) done.length <;> rfl
  | cons item rest ih =>
      have later := ih (fun other member => decodes other (List.mem_cons_of_mem _ member))
        (fun other member => fits other (List.mem_cons_of_mem _ member)) (done ++ frame (encode item))
      have split : reached = (done ++ frame (encode item)) ++
          rest.flatMap fun item => frame (encode item) := by
        simp only [reached, List.flatMap_cons, List.append_assoc]
      have first := @scan_frame _ _ decode done (encode item)
        ((rest.flatMap fun item => frame (encode item)) ++ tail) (fits item List.mem_cons_self)
      have whole : done ++ (frame (encode item) ++ ((rest.flatMap fun item => frame (encode item)) ++ tail)) =
          reached ++ tail := by
        simp only [split, List.append_assoc]
      have stop : (done ++ frame (encode item)).length = done.length + size item := by
        rw [List.length_append, frame_length]
      rw [← split] at later
      rw [whole, decodes item List.mem_cons_self] at first
      rw [first, later, located, stop]
      cases scan decode (reached ++ tail) reached.length <;> rfl

/-- What a successful scan reads agrees with what was written in all that each read keeps. -/
theorem scan_keys {κ : Type} {key : α → κ} {items : List α}
    (keeps : ∀ item ∈ items, ∀ read, decode (encode item) = .ok read → key read = key item)
    (fits : ∀ item ∈ items, (encode item).length < 256 ^ 4) (done : List (Fin 256))
    {torn : List (Fin 256)} (incomplete : Incomplete torn) {frames : List (α × Nat × Nat)} {stop : Nat}
    (scanned : scan decode (done ++ ((items.flatMap fun item => frame (encode item)) ++ torn)) done.length =
      .ok (frames, stop)) :
    let size := fun item => 4 + (encode item).length
    frames.map (fun located => (key located.1, located.2)) =
        (located size done.length items).map (fun located => (key located.1, located.2)) ∧
      stop = done.length + (items.map size).sum := by
  intro size
  induction items generalizing done frames with
  | nil =>
      rw [List.flatMap_nil, List.nil_append, scan_incomplete done incomplete] at scanned
      cases scanned
      exact ⟨rfl, rfl⟩
  | cons item rest ih =>
      rw [List.flatMap_cons, List.append_assoc, scan_frame done (fits item List.mem_cons_self)] at scanned
      cases decoded : decode (encode item) with
      | error error =>
          rw [decoded] at scanned
          cases scanned
      | ok read =>
          have whole : done ++ (frame (encode item) ++ ((rest.flatMap fun item => frame (encode item)) ++ torn)) =
              (done ++ frame (encode item)) ++ ((rest.flatMap fun item => frame (encode item)) ++ torn) :=
            (List.append_assoc _ _ _).symm
          rw [decoded, whole] at scanned
          dsimp only at scanned
          cases later : scan decode ((done ++ frame (encode item)) ++
              ((rest.flatMap fun item => frame (encode item)) ++ torn)) (done ++ frame (encode item)).length with
          | error error =>
              rw [later] at scanned
              cases scanned
          | ok result =>
              rw [later] at scanned
              obtain ⟨found, reached⟩ := result
              cases scanned
              have reads := ih (fun other member => keeps other (List.mem_cons_of_mem _ member))
                (fun other member => fits other (List.mem_cons_of_mem _ member)) _ later
              have size_ : (done ++ frame (encode item)).length = done.length + size item := by
                rw [List.length_append, frame_length]
              rw [size_] at reads
              constructor
              · rw [List.map_cons, located, List.map_cons, reads.1, size_,
                  keeps item List.mem_cons_self read decoded]
              · rw [reads.2, List.map_cons, List.sum_cons, Nat.add_assoc]

/-- Cut frames are the whole ones below the cut and incomplete bytes. -/
theorem take_frames {items : List α} (fits : ∀ item ∈ items, (encode item).length < 256 ^ 4)
    (cut : Nat) :
    ∃ torn, Incomplete torn ∧ (items.flatMap fun item => frame (encode item)).take cut =
      ((whole (fun item => 4 + (encode item).length) cut items).flatMap
        fun item => frame (encode item)) ++ torn := by
  induction items generalizing cut with
  | nil => exact ⟨[], incomplete_nil, by simp [whole]⟩
  | cons item rest ih =>
      obtain ⟨torn, incomplete, later⟩ := ih
        (fun other member => fits other (List.mem_cons_of_mem _ member))
        (cut - (4 + (encode item).length))
      by_cases complete : 4 + (encode item).length ≤ cut
      · refine ⟨torn, incomplete, ?_⟩
        rw [whole, if_pos complete, List.flatMap_cons, List.flatMap_cons, List.append_assoc, ← later,
          List.take_append, frame_length, List.take_of_length_le (by simpa using complete)]
      · refine ⟨(frame (encode item)).take cut,
          incomplete_take (fits item List.mem_cons_self) (by omega), ?_⟩
        rw [whole, if_neg complete, List.flatMap_cons, List.flatMap_nil, List.nil_append]
        exact List.take_append_of_le_length (by rw [frame_length]; omega)

theorem frames_length (items : List α) :
    (items.flatMap fun item => frame (encode item)).length =
      (items.map fun item => 4 + (encode item).length).sum := by
  rw [List.length_flatMap]
  simp only [frame_length]

/-- The file cut at a byte is read as the items whose frames are entirely below
the cut, whatever lies before the offset. -/
theorem scan_cut {items : List α} (decodes : ∀ item ∈ items, decode (encode item) = .ok item)
    (fits : ∀ item ∈ items, (encode item).length < 256 ^ 4) (done : List (Fin 256)) (cut : Nat) :
    let size := fun item => 4 + (encode item).length
    let kept := whole size cut items
    scan decode (done ++ (items.flatMap fun item => frame (encode item)).take cut) done.length =
      .ok (located size done.length kept, done.length + (kept.map size).sum) := by
  intro size kept
  obtain ⟨torn, incomplete, cuts⟩ := take_frames fits cut
  have inside : ∀ item ∈ kept, item ∈ items := fun item member =>
    (whole_leading size cut items).subset member
  have read := scan_frames (fun item member => decodes item (inside item member))
    (fun item member => fits item (inside item member)) done torn
  rw [cuts, ← List.append_assoc]
  refine read.trans ?_
  rw [scan_incomplete _ incomplete, List.length_append, frames_length]
  simp only [Except.map, List.append_nil]
  rfl

/-- The first located item with a property starts behind those before it. -/
theorem find_located (size : α → Nat) (offset : Nat) (wanted : α → Bool) (items : List α) :
    ((located size offset items).find? fun located => wanted located.1).map (·.2.1) =
      if items.any wanted then
        some (offset + ((items.takeWhile fun item => !wanted item).map size).sum)
      else none := by
  induction items generalizing offset with
  | nil => rfl
  | cons item rest ih =>
      cases here : wanted item with
      | true => simp [located, here]
      | false => simp [located, here, ih, Nat.add_assoc]

/-! ### When every cut is read exactly -/

/-- Cut at any byte, the file is read as the items whose frames are entirely below the cut. -/
def CutsExact (decode : List (Fin 256) → Except ε α) (encode : α → List (Fin 256)) (items : List α) : Prop :=
  ∀ cut, scan decode ((items.flatMap fun item => frame (encode item)).take cut) 0 =
    .ok (located (fun item => 4 + (encode item).length) 0 (whole (fun item => 4 + (encode item).length) cut items),
      ((whole (fun item => 4 + (encode item).length) cut items).map fun item => 4 + (encode item).length).sum)

/-- A last frame read as one item of its size fits its length field. -/
theorem frame_read {done body : List (Fin 256)} {item : α} {reached : Nat}
    (read : scan decode (done ++ frame body) done.length =
      .ok ([(item, done.length, done.length + (4 + body.length))], reached)) :
    decode body = .ok item ∧ body.length < 256 ^ 4 := by
  have length : (done ++ frame body).length = done.length + 4 + body.length := by
    rw [List.length_append, frame_length, Nat.add_assoc]
  have header : ofLittleEndian (((done ++ frame body).drop done.length).take 4) = body.length % 256 ^ 4 := by
    rw [List.drop_left, frame, List.take_left' (littleEndian_length _ _), ofLittleEndian_mod]
  have behind : (done ++ frame body).drop (done.length + 4) = body := by
    rw [← List.drop_drop, List.drop_left, frame, List.drop_left' (littleEndian_length _ _)]
  have reduced : body.length % 256 ^ 4 ≤ body.length := Nat.mod_le _ _
  rw [scan, if_pos (by omega)] at read
  simp only [header, behind] at read
  rw [if_neg (by omega)] at read
  cases decoded : decode (body.take (body.length % 256 ^ 4)) with
  | error error =>
      rw [decoded] at read
      cases read
  | ok other =>
      rw [decoded] at read
      dsimp only at read
      cases later : scan decode (done ++ frame body) (done.length + 4 + body.length % 256 ^ 4) with
      | error error =>
          rw [later] at read
          cases read
      | ok result =>
          rw [later] at read
          have first := (Prod.mk.inj (Except.ok.inj read)).1
          obtain ⟨same, _⟩ := List.cons.inj first
          obtain ⟨sameItem, stops⟩ := Prod.mk.inj same
          have stop := (Prod.mk.inj stops).2
          have whole : body.length % 256 ^ 4 = body.length := by omega
          rw [whole, List.take_length] at decoded
          refine ⟨sameItem ▸ decoded, ?_⟩
          rw [← whole]
          exact Nat.mod_lt _ (by decide)

/-- Frames are read exactly at every cut when each body fits its length field and decodes
to its item, and only then. -/
theorem cutsExact_iff {items : List α} :
    CutsExact decode encode items ↔
      ∀ item ∈ items, decode (encode item) = .ok item ∧ (encode item).length < 256 ^ 4 := by
  constructor
  · intro exact_
    have later : ∀ rest front, items = front ++ rest →
        (∀ item ∈ front, decode (encode item) = .ok item ∧ (encode item).length < 256 ^ 4) →
        ∀ item ∈ rest, decode (encode item) = .ok item ∧ (encode item).length < 256 ^ 4 := by
      intro rest
      induction rest with
      | nil => exact fun _ _ _ _ member => by cases member
      | cons item rest ih =>
          intro front split before
          have parts : items = (front ++ [item]) ++ rest := by
            rw [split, List.append_assoc]
            rfl
          have frames : (items.flatMap fun item => frame (encode item)).take
              (((front ++ [item]).map fun item => 4 + (encode item).length).sum) =
              (front.flatMap fun item => frame (encode item)) ++ frame (encode item) := by
            rw [parts, List.flatMap_append, ← @frames_length _ encode (front ++ [item]), List.take_left]
            simp
          have kept : whole (fun item => 4 + (encode item).length)
              (((front ++ [item]).map fun item => 4 + (encode item).length).sum) items = front ++ [item] := by
            rw [parts, whole_append, if_pos le_rfl, Nat.sub_self]
            cases rest <;> simp [whole]
          have read := exact_ (((front ++ [item]).map fun item => 4 + (encode item).length).sum)
          have front_read := scan_frames (fun item member => (before item member).1)
            (fun item member => (before item member).2) [] (frame (encode item))
          rw [frames, kept, located_append] at read
          simp only [List.nil_append, List.length_nil] at front_read
          rw [front_read] at read
          have here : decode (encode item) = .ok item ∧ (encode item).length < 256 ^ 4 := by
            cases scanned : scan decode ((front.flatMap fun item => frame (encode item)) ++ frame (encode item))
                (front.flatMap fun item => frame (encode item)).length with
            | error error =>
                rw [scanned] at read
                cases read
            | ok result =>
                rw [scanned] at read
                have same := (Prod.mk.inj (Except.ok.inj read)).1
                have last := List.append_cancel_left same
                rw [Nat.zero_add, ← frames_length] at last
                obtain ⟨located_, reached⟩ := result
                dsimp only at last
                rw [last] at scanned
                exact frame_read scanned
          intro other member
          rcases List.mem_cons.mp member with rfl | inside
          · exact here
          · refine ih (front ++ [item]) parts ?_ other inside
            intro earlier among
            rcases List.mem_append.mp among with old | new
            · exact before earlier old
            · rwa [List.mem_singleton.mp new]
    exact later items [] rfl (fun _ member => by cases member)
  · intro fine cut
    have read := scan_cut (fun item member => (fine item member).1) (fun item member => (fine item member).2) [] cut
    simpa only [List.nil_append, List.length_nil, Nat.zero_add] using read

end Cut

end Library.Framing
