import Mathlib

/-! Files of framed records. A reader takes one frame after the other and stops where what
is left is not a whole frame. -/

namespace TyLsm

/-- A format of records in which no frame can be confused with another, and in which a part
of a frame reads like the end of the file. -/
structure Framing (α β ε : Type) where
  Valid : α → Prop
  frame : α → List β
  parse : List β → Except ε (Option (α × List β))
  frame_ne_nil : ∀ a, frame a ≠ []
  parse_nil : parse [] = .ok none
  parse_frame : ∀ {a}, Valid a → ∀ rest, parse (frame a ++ rest) = .ok (some (a, rest))
  parse_torn : ∀ {a}, Valid a → ∀ n < (frame a).length, parse ((frame a).take n) = .ok none
  of_parse : ∀ {bytes a rest}, parse bytes = .ok (some (a, rest)) →
    Valid a ∧ bytes = frame a ++ rest

namespace Framing

variable {α β ε γ : Type} (F : Framing α β ε)

def frames (as : List α) : List β := as.flatMap F.frame

/-- Take at most `n` frames. -/
def readUpTo : Nat → List β → Except ε (List α)
  | 0, _ => .ok []
  | n + 1, bytes =>
    match F.parse bytes with
    | .error err => .error err
    | .ok none => .ok []
    | .ok (some (a, rest)) => (readUpTo n rest).map (a :: ·)

def read (bytes : List β) : Except ε (List α) := F.readUpTo bytes.length bytes

/-- A reader that folds each record into a state as soon as it has read it. -/
def readInto (step : γ → α → Except ε γ) : Nat → γ → List β → Except ε γ
  | 0, acc, _ => .ok acc
  | n + 1, acc, bytes =>
    match F.parse bytes with
    | .error err => .error err
    | .ok none => .ok acc
    | .ok (some (a, rest)) =>
      match step acc a with
      | .error err => .error err
      | .ok acc => readInto step n acc rest

/-- The records whose frames lie within the first `n` bytes. -/
def complete : List α → Nat → List α
  | [], _ => []
  | a :: as, n =>
    if (F.frame a).length ≤ n then a :: complete as (n - (F.frame a).length) else []

/-- What the first `n` bytes hold after the last whole frame. -/
def leftover : List α → Nat → List β
  | [], _ => []
  | a :: as, n =>
    if (F.frame a).length ≤ n then leftover as (n - (F.frame a).length) else (F.frame a).take n

variable {F}

@[simp] theorem frames_nil : F.frames [] = [] := rfl

@[simp] theorem frames_cons (a : α) (as : List α) : F.frames (a :: as) = F.frame a ++ F.frames as :=
  rfl

theorem frames_append (l r : List α) : F.frames (l ++ r) = F.frames l ++ F.frames r :=
  List.flatMap_append

theorem rest_lt {bytes rest : List β} {a : α} (h : F.parse bytes = .ok (some (a, rest))) :
    rest.length < bytes.length := by
  rw [(F.of_parse h).2, List.length_append]
  have := List.length_pos_of_ne_nil (F.frame_ne_nil a)
  omega

theorem readUpTo_nil (n : Nat) : F.readUpTo n [] = .ok [] := by
  cases n with
  | zero => rfl
  | succ n => rw [readUpTo, F.parse_nil]

theorem readUpTo_congr {m n : Nat} {bytes : List β} (hm : bytes.length ≤ m)
    (hn : bytes.length ≤ n) : F.readUpTo m bytes = F.readUpTo n bytes := by
  induction m generalizing n bytes with
  | zero =>
    obtain rfl : bytes = [] := List.length_eq_zero_iff.mp (by omega)
    rw [readUpTo_nil, readUpTo_nil]
  | succ m ih =>
    cases n with
    | zero =>
      obtain rfl : bytes = [] := List.length_eq_zero_iff.mp (by omega)
      rw [readUpTo_nil, readUpTo_nil]
    | succ n =>
      rw [readUpTo, readUpTo]
      cases hp : F.parse bytes with
      | error err => rfl
      | ok result =>
        cases result with
        | none => rfl
        | some pair =>
          have hlt := rest_lt hp
          have hm' : pair.2.length ≤ m := by omega
          have hn' : pair.2.length ≤ n := by omega
          simp only [ih hm' hn']

theorem read_of_parse {bytes rest : List β} {a : α} (h : F.parse bytes = .ok (some (a, rest))) :
    F.read bytes = (F.read rest).map (a :: ·) := by
  have hlt := rest_lt h
  obtain ⟨n, hn⟩ := Nat.exists_eq_succ_of_ne_zero (by omega : bytes.length ≠ 0)
  have hrest : F.readUpTo n rest = F.read rest := readUpTo_congr (by omega) le_rfl
  rw [read, hn, readUpTo, h]
  simp only [hrest]

theorem read_of_end {bytes : List β} (h : F.parse bytes = .ok none) : F.read bytes = .ok [] := by
  rw [read]
  cases bytes.length with
  | zero => rfl
  | succ n => rw [readUpTo, h]

theorem parse_of_read {bytes : List β} {a : α} {as : List α} (h : F.read bytes = .ok (a :: as)) :
    ∃ rest, F.parse bytes = .ok (some (a, rest)) ∧ F.read rest = .ok as := by
  cases hp : F.parse bytes with
  | error err =>
    rw [read] at h
    cases hl : bytes.length with
    | zero =>
      rw [List.length_eq_zero_iff.mp hl, F.parse_nil] at hp
      cases hp
    | succ n =>
      rw [hl, readUpTo, hp] at h
      cases h
  | ok result =>
    cases result with
    | none =>
      rw [read_of_end hp] at h
      cases h
    | some pair =>
      obtain ⟨a', rest⟩ := pair
      rw [read_of_parse hp] at h
      cases hr : F.read rest with
      | error err =>
        rw [hr] at h
        cases h
      | ok as' =>
        rw [hr] at h
        obtain ⟨rfl, rfl⟩ := List.cons.inj (Except.ok.inj h)
        exact ⟨rest, rfl, hr⟩

theorem valid_of_read {bytes : List β} {as : List α} (h : F.read bytes = .ok as) :
    ∀ a ∈ as, F.Valid a := by
  induction as generalizing bytes with
  | nil => simp
  | cons a as ih =>
    obtain ⟨rest, hp, hread⟩ := parse_of_read h
    exact List.forall_mem_cons.mpr ⟨(F.of_parse hp).1, ih hread⟩

theorem read_of_error {bytes : List β} {err : ε} (h : F.parse bytes = .error err) :
    F.read bytes = .error err := by
  cases bytes with
  | nil =>
    rw [F.parse_nil] at h
    cases h
  | cons b bytes => rw [read, List.length_cons, readUpTo, h]

theorem read_frames_append {as : List α} (h : ∀ a ∈ as, F.Valid a) (rest : List β) :
    F.read (F.frames as ++ rest) = (F.read rest).map (as ++ ·) := by
  induction as with
  | nil => cases hr : F.read rest <;> simp [hr, Except.map]
  | cons a as ih =>
    rw [frames_cons, List.append_assoc, read_of_parse (F.parse_frame (h a (by simp)) _),
      ih fun a' ha' => h a' (by simp [ha'])]
    cases F.read rest <;> rfl

theorem read_frames {as : List α} (h : ∀ a ∈ as, F.Valid a) : F.read (F.frames as) = .ok as := by
  have hall := read_frames_append h ([] : List β)
  rw [List.append_nil] at hall
  rw [hall, read_of_end F.parse_nil]
  exact congrArg Except.ok (List.append_nil as)

theorem take_frames (as : List α) (n : Nat) :
    (F.frames as).take n = F.frames (F.complete as n) ++ F.leftover as n := by
  induction as generalizing n with
  | nil => simp [complete, leftover]
  | cons a as ih =>
    rw [frames_cons, List.take_append, complete, leftover]
    split
    · rename_i hle
      rw [List.take_of_length_le hle, ih, frames_cons, List.append_assoc]
    · rename_i hlt
      rw [Nat.sub_eq_zero_of_le (Nat.le_of_not_le hlt)]
      simp

theorem complete_sublist (as : List α) (n : Nat) : (F.complete as n).Sublist as := by
  induction as generalizing n with
  | nil => exact List.Sublist.refl _
  | cons a as ih =>
    rw [complete]
    split
    · exact (ih _).cons_cons a
    · exact List.nil_sublist _

theorem complete_eq_take (as : List α) (n : Nat) :
    ∃ k ≤ as.length, F.complete as n = as.take k ∧ (F.frames (as.take k)).length ≤ n ∧
      ∀ j ≤ as.length, k < j → n < (F.frames (as.take j)).length := by
  induction as generalizing n with
  | nil => exact ⟨0, le_rfl, rfl, by simp, fun j hj hk => absurd hk (by simpa using hj)⟩
  | cons a as ih =>
    rw [complete]
    split
    · rename_i hle
      obtain ⟨k, hk, htake, hfit, hmax⟩ := ih (n - (F.frame a).length)
      refine ⟨k + 1, by simpa using hk, by simp [htake], ?_, fun j hj hlt => ?_⟩
      · rw [List.take_succ_cons, frames_cons, List.length_append]
        omega
      · obtain ⟨j, rfl⟩ := Nat.exists_eq_succ_of_ne_zero (by omega : j ≠ 0)
        have := hmax j (by simpa using hj) (by omega)
        rw [Nat.succ_eq_add_one, List.take_succ_cons, frames_cons, List.length_append]
        omega
    · rename_i hlt
      refine ⟨0, Nat.zero_le _, rfl, by simp, fun j _ hj => ?_⟩
      obtain ⟨j, rfl⟩ := Nat.exists_eq_succ_of_ne_zero (by omega : j ≠ 0)
      rw [Nat.succ_eq_add_one, List.take_succ_cons, frames_cons, List.length_append]
      omega

theorem leftover_eq_nil_iff {as : List α} {n : Nat} :
    F.leftover as n = [] ↔ ∃ k, (F.frames as).take n = F.frames (as.take k) := by
  obtain ⟨k, -, hk, -, hmax⟩ := complete_eq_take (F := F) as n
  have htake := take_frames (F := F) as n
  rw [hk] at htake
  constructor
  · intro h
    exact ⟨k, by rw [htake, h, List.append_nil]⟩
  · rintro ⟨j, hj⟩
    have hfit : (F.frames (as.take j)).length ≤ n := by
      rw [← hj]
      exact List.length_take_le _ _
    have hle : min j as.length ≤ k := by
      by_contra hlt
      have hbeyond := hmax (min j as.length) (min_le_right _ _) (not_le.mp hlt)
      rw [List.take_eq_take_min] at hfit
      omega
    -- so the boundary lies within the complete records
    have hshort : (F.frames (as.take j)).length ≤ (F.frames (as.take k)).length := by
      have hsub : (as.take (min j as.length)).Sublist (as.take k) :=
        (List.take_prefix_take_left hle).sublist
      rw [List.take_eq_take_min (l := as)]
      exact (hsub.flatMap F.frame).length_le
    have hlen := congrArg List.length (htake.symm.trans hj)
    rw [List.length_append] at hlen
    exact List.length_eq_zero_iff.mp (by omega)

theorem parse_leftover {as : List α} (h : ∀ a ∈ as, F.Valid a) (n : Nat) :
    F.parse (F.leftover as n) = .ok none := by
  induction as generalizing n with
  | nil => exact F.parse_nil
  | cons a as ih =>
    rw [leftover]
    split
    · exact ih (fun a' ha' => h a' (by simp [ha'])) _
    · rename_i hlt
      exact F.parse_torn (h a (by simp)) n (Nat.lt_of_not_le hlt)

theorem read_take {as : List α} (h : ∀ a ∈ as, F.Valid a) (n : Nat) :
    F.read ((F.frames as).take n) = .ok (F.complete as n) := by
  rw [take_frames, read_frames_append fun a ha => h a ((complete_sublist as n).subset ha),
    read_of_end (parse_leftover h n)]
  exact congrArg Except.ok (List.append_nil _)

variable (F) in
/-- Bytes with the frames of these records, and behind them at most what a reader takes for
the end. -/
def Holds (bytes : List β) (as : List α) : Prop :=
  ∃ tail, bytes = F.frames as ++ tail ∧ F.parse tail = .ok none

theorem holds_frames (as : List α) : F.Holds (F.frames as) as :=
  ⟨[], (List.append_nil _).symm, F.parse_nil⟩

theorem holds_torn (as : List α) {a : α} (h : F.Valid a) {n : Nat} (hn : n < (F.frame a).length) :
    F.Holds (F.frames as ++ (F.frame a).take n) as := ⟨_, rfl, F.parse_torn h n hn⟩

theorem Holds.read {bytes : List β} {as : List α} (h : F.Holds bytes as)
    (has : ∀ a ∈ as, F.Valid a) : F.read bytes = .ok as := by
  obtain ⟨tail, rfl, htail⟩ := h
  rw [read_frames_append has, read_of_end htail]
  exact congrArg Except.ok (List.append_nil as)

theorem readInto_of_read {step : γ → α → Except ε γ} {n : Nat} {bytes : List β} {as : List α}
    (hn : bytes.length ≤ n) (h : F.read bytes = .ok as) (acc : γ) :
    F.readInto step n acc bytes = as.foldlM step acc := by
  replace h := (readUpTo_congr hn le_rfl).trans h
  clear hn
  induction n generalizing bytes as acc with
  | zero =>
    obtain rfl : [] = as := Except.ok.inj h
    rfl
  | succ n ih =>
    rw [readUpTo] at h
    rw [readInto]
    cases hp : F.parse bytes with
    | error err =>
      rw [hp] at h
      cases h
    | ok result =>
      cases result with
      | none =>
        rw [hp] at h
        obtain rfl : [] = as := Except.ok.inj h
        rfl
      | some pair =>
        obtain ⟨a, rest⟩ := pair
        simp only [hp] at h
        cases hr : F.readUpTo n rest with
        | error err =>
          rw [hr] at h
          cases h
        | ok as' =>
          rw [hr] at h
          obtain rfl : a :: as' = as := Except.ok.inj h
          simp only [List.foldlM_cons, bind, Except.bind]
          cases step acc a with
          | error err => rfl
          | ok acc' => exact ih acc' hr

theorem readInto_append (n : Nat) (acc : List α) (bytes : List β) :
    F.readInto (fun acc a => .ok (acc ++ [a])) n acc bytes =
      (F.readUpTo n bytes).map (acc ++ ·) := by
  induction n generalizing acc bytes with
  | zero => simp [readInto, readUpTo, Except.map]
  | succ n ih =>
    rw [readInto, readUpTo]
    cases F.parse bytes with
    | error err => rfl
    | ok result =>
      cases result with
      | none => simp [Except.map]
      | some pair =>
        simp only [ih]
        cases F.readUpTo n pair.2 <;> simp [Except.map]

/-- However a file came about, records that are appended to it from now on are read after
the ones expected in it exactly when it holds nothing but the frames of these. -/
theorem continues_iff {C : α → Prop} (hC : ∀ a, C a → F.Valid a)
    (hprobe : ∀ t : List β, t ≠ [] → ∃ a, C a ∧ ∀ rest, t ++ F.frame a ≠ F.frame a ++ rest)
    (file : List β) (as : List α) :
    (∀ more, (∀ a ∈ more, C a) → F.read (file ++ F.frames more) = .ok (as ++ more)) ↔
      file = F.frames as ∧ ∀ a ∈ as, F.Valid a := by
  constructor
  · intro h
    induction as generalizing file with
    | nil =>
      refine ⟨?_, fun a ha => absurd ha List.not_mem_nil⟩
      by_contra hne
      obtain ⟨a, ha, hno⟩ := hprobe file hne
      have hread := h [a] (by simpa using ha)
      rw [frames_cons, frames_nil, List.append_nil] at hread
      obtain ⟨rest, hp, _⟩ := parse_of_read hread
      exact hno rest (F.of_parse hp).2
    | cons a as ih =>
      have hfirst := h [] (by simp)
      rw [frames_nil, List.append_nil, List.append_nil] at hfirst
      obtain ⟨rest, hp, _⟩ := parse_of_read hfirst
      obtain ⟨hvalid, hfile⟩ := F.of_parse hp
      obtain ⟨hrest, hall⟩ := ih rest fun more hmore => by
        have hread := h more hmore
        rw [hfile, List.append_assoc] at hread
        obtain ⟨rest', hp', hread'⟩ := parse_of_read hread
        rw [F.parse_frame hvalid] at hp'
        obtain rfl : rest ++ F.frames more = rest' := by simpa using hp'
        exact hread'
      refine ⟨by rw [hfile, hrest, frames_cons], fun a' ha' => ?_⟩
      rcases List.mem_cons.mp ha' with rfl | ha'
      · exact hvalid
      · exact hall a' ha'
  · rintro ⟨rfl, hvalid⟩ more hmore
    rw [← frames_append]
    refine read_frames fun a ha => ?_
    rcases List.mem_append.mp ha with ha | ha
    · exact hvalid a ha
    · exact hC a (hmore a ha)

end Framing

end TyLsm
