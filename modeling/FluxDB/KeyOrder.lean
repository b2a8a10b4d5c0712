-- The comparison of two encoded keys is the order of the keys. A container compares its items in
-- step and stops at the first pair that differs; the order of texts is that of their bytes.
import FluxDB.ValueRoundTrip

namespace FluxDB.Types

open Bytes List Option

/-! ## The order of the values -/

/-- None comes before every value. -/
def noneFirst {α : Type} (cmp : α → α → Ordering) : Option α → Option α → Ordering
  | none, none => .eq
  | none, some _ => .lt
  | some _, none => .gt
  | some a, some b => cmp a b

namespace Ty

/-- The order of a key type: numbers by value, texts, slices and containers lexicographic. -/
def order : (t : Ty) → t.isKey = true → t.Val → t.Val → Ordering
  | unit, _ => fun _ _ => .eq
  | bool, _ => fun (a b : Bool) => compare a b
  | unsigned _, _ => compareOn BitVec.toNat
  | signed _, _ => compareOn BitVec.toInt
  | float _, h => nomatch h
  | char, _ => fun (a b : Char) => compare a b
  | str, _ => fun a b => List.compareLex compare (String.toList a) (String.toList b)
  | string, _ => fun a b => List.compareLex compare (String.toList a) (String.toList b)
  | byteSlice, _ => List.compareLex compare
  | byteArray _, _ => fun a b =>
    List.compareLex compare (List.Vector.toList a) (List.Vector.toList b)
  | option t, h => noneFirst (t.order h)
  | array t _, h => fun a b =>
    List.compareLex (t.order h) (List.Vector.toList a) (List.Vector.toList b)
  | vec t, h => fun a b => List.compareLex (t.order h) (Subtype.val a) (Subtype.val b)

end Ty

/-! ## Comparing items -/

section Items

variable {α γ : Type} {cmp : α → α → Ordering}

/-- The items in step, as far as both lists go. -/
def comparePrefix (cmp : α → α → Ordering) : List α → List α → Ordering
  | a :: as, b :: bs => (cmp a b).then (comparePrefix cmp as bs)
  | _, _ => .eq

/-- If one list goes on where the other ends, the longer one comes later. -/
theorem compareLex_eq_then (cmp : α → α → Ordering) (as bs : List α) :
    List.compareLex cmp as bs = (comparePrefix cmp as bs).then (compare as.length bs.length) := by
  induction as generalizing bs with
  | nil =>
    cases bs with
    | nil => rfl
    | cons b bs => exact (Nat.compare_eq_lt.mpr (Nat.succ_pos _)).symm
  | cons a as ih =>
    cases bs with
    | nil => exact (Nat.compare_eq_gt.mpr (Nat.succ_pos _)).symm
    | cons b bs =>
      have hlength : compare (as.length + 1) (bs.length + 1) = compare as.length bs.length := by
        simp only [Nat.compare_eq_ite_lt, Nat.add_lt_add_iff_right]
      have hcons : comparePrefix cmp (a :: as) (b :: bs) =
          (cmp a b).then (comparePrefix cmp as bs) := rfl
      rw [List.compareLex_cons_cons, ih, length_cons, length_cons, hlength, hcons]
      cases cmp a b <;> rfl

/-- What the comparison of a key type promises. -/
def Ordered (K : KeyType α) (cmp : α → α → Ordering) : Prop :=
  ∀ a b x y, K.as_bytes a = .ok x → K.as_bytes b = .ok y → x.length < 2 ^ 32 → y.length < 2 ^ 32 →
    K.compare x y = some (cmp a b)

theorem compareItems_walks {K : KeyType α} (hK : Ordered K cmp)
    {next1 next2 : γ → Option (Bytes × γ)} {cursor1 cursor2 : γ} {items1 items2 : List α}
    {encs1 encs2 : List Bytes} (hwrites1 : Writes K.as_bytes items1 encs1)
    (hwrites2 : Writes K.as_bytes items2 encs2) (hwalks1 : Walks next1 cursor1 encs1)
    (hwalks2 : Walks next2 cursor2 encs2) (hlen1 : ∀ bytes ∈ encs1, bytes.length < 2 ^ 32)
    (hlen2 : ∀ bytes ∈ encs2, bytes.length < 2 ^ 32) :
    compareItems next1 next2 K.compare (min items1.length items2.length) cursor1 cursor2 =
      some (comparePrefix cmp items1 items2) := by
  induction hwrites1 generalizing items2 encs2 cursor1 cursor2 with
  | nil =>
    rw [length_nil, Nat.zero_min]
    rfl
  | @cons a x items1 encs1 ha hrest1 ih =>
    cases hwrites2 with
    | nil =>
      rw [length_nil, Nat.min_zero]
      rfl
    | @cons b y items2 encs2 hb hrest2 =>
      obtain ⟨cursor1', hnext1, hwalks1⟩ := hwalks1
      obtain ⟨cursor2', hnext2, hwalks2⟩ := hwalks2
      rw [forall_mem_cons] at hlen1 hlen2
      rw [length_cons, length_cons, Nat.succ_min_succ]
      unfold compareItems comparePrefix
      rw [hnext1, hnext2, bind_eq_bind, bind_some]
      dsimp only
      rw [bind_eq_bind, bind_some]
      dsimp only
      rw [hK a b x y ha hb hlen1.1 hlen2.1, bind_some]
      split
      · next hne =>
        cases hcmp : cmp a b with
        | eq => exact absurd hcmp hne
        | lt | gt => rfl
      rename_i heq
      rw [not_not.mp heq, ih hrest2 hwalks1 hwalks2 hlen1.2 hlen2.2]
      rfl

end Items

/-! ## The base types -/

section Base

variable {α : Type} {cmp : α → α → Ordering}

theorem compareDecoded_eq {V : ValueType α} (hV : Lawful V) {a b : α} {x y : Bytes}
    (ha : V.as_bytes a = .ok x) (hb : V.as_bytes b = .ok y) (hx : x.length < 2 ^ 32)
    (hy : y.length < 2 ^ 32) : compareDecoded V cmp x y = some (cmp a b) := by
  unfold compareDecoded
  rw [hV.round a x ha hx, hV.round b y hb hy]
  rfl

theorem ordered_str : Ordered strKey fun a b => List.compareLex compare a.toList b.toList := by
  intro a b x y ha hb _ _
  cases ha
  cases hb
  exact congrArg some (Utf8.compare_bytes a b)

theorem ordered_bytes : Ordered bytesKey (List.compareLex compare) := by
  intro a b x y ha hb _ _
  cases ha
  cases hb
  rfl

theorem ordered_byteArray (n : Nat) :
    Ordered (byteArrayKey n) fun a b => List.compareLex compare a.toList b.toList := by
  intro a b x y ha hb _ _
  cases ha
  cases hb
  rfl

end Base

/-! ## The containers -/

section Containers

variable {α : Type} {cmp : α → α → Ordering} {K : KeyType α}

/-- The bytes of a value behind the tag. -/
theorem option_bytes {T : ValueType α} {a : Option α} {x : Bytes}
    (h : (optionValue T).as_bytes a = .ok x) : (a = none ∧ x.head? = some 0) ∨
      ∃ inner bytes, a = some inner ∧ T.as_bytes inner = .ok bytes ∧ x = 1 :: bytes := by
  cases a with
  | none =>
    rw [option_as_bytes_none] at h
    cases h
    exact .inl ⟨rfl, rfl⟩
  | some inner =>
    rw [option_as_bytes_some] at h
    obtain ⟨bytes, hinner, ⟨⟩⟩ := Except.bind_eq_ok.mp h
    exact .inr ⟨inner, bytes, rfl, hinner, rfl⟩

theorem ordered_option (hK : Ordered K cmp) : Ordered (optionKey K) (noneFirst cmp) := by
  intro a b x y ha hb hx hy
  unfold optionKey
  dsimp only
  rcases option_bytes ha with ⟨rfl, hx0⟩ | ⟨a, xs, rfl, hinner1, rfl⟩
  · rcases option_bytes hb with ⟨rfl, hy0⟩ | ⟨b, ys, rfl, -, rfl⟩
    · rw [hx0, hy0]
      rfl
    rw [hx0]
    rfl
  rw [length_cons] at hx
  rcases option_bytes hb with ⟨rfl, hy0⟩ | ⟨b, ys, rfl, hinner2, rfl⟩
  · rw [hy0]
    rfl
  rw [length_cons] at hy
  exact hK a b xs ys hinner1 hinner2 (by omega) (by omega)

/-- Of two lists of the same length the prefix is all. -/
theorem comparePrefix_of_length_eq {as bs : List α} (h : as.length = bs.length) :
    comparePrefix cmp as bs = List.compareLex cmp as bs := by
  have hlength : compare as.length bs.length = .eq := Nat.compare_eq_eq.mpr h
  rw [compareLex_eq_then, hlength, Ordering.then_eq]

theorem ordered_array (hT : Lawful K.toValueType) (hK : Ordered K cmp) (n : Nat) :
    Ordered (arrayKey K n) fun a b => List.compareLex cmp a.toList b.toList := by
  intro a b x y ha hb hx hy
  have hlength : a.toList.length = b.toList.length := by
    rw [a.toList_length, b.toList_length]
  have hcount : min a.toList.length b.toList.length = n := by
    rw [a.toList_length, b.toList_length, Nat.min_self]
  unfold arrayKey
  dsimp only
  cases hfixed : K.fixed_width with
  | some fixed =>
    obtain ⟨encs1, hwrites1, hwalks1, hlen1⟩ := array_walks_fixed hT hfixed ha hx
    obtain ⟨encs2, hwrites2, hwalks2, hlen2⟩ := array_walks_fixed hT hfixed hb hy
    have h := compareItems_walks hK hwrites1 hwrites2 hwalks1 hwalks2 hlen1 hlen2
    rwa [hcount, comparePrefix_of_length_eq hlength] at h
  | none =>
    obtain ⟨encs1, hwrites1, hwalks1, hlen1⟩ := array_walks_variable hfixed ha hx
    obtain ⟨encs2, hwrites2, hwalks2, hlen2⟩ := array_walks_variable hfixed hb hy
    have h := compareItems_walks hK hwrites1 hwrites2 hwalks1 hwalks2 hlen1 hlen2
    rwa [hcount, comparePrefix_of_length_eq hlength] at h

theorem ordered_vec (hT : Lawful K.toValueType) (hK : Ordered K cmp) :
    Ordered (vecKey K) fun a b => List.compareLex cmp a.val b.val := by
  intro a b x y ha hb hx hy
  obtain ⟨offset1, hcount1, hwalk1⟩ := vec_walks hT ha hx
  obtain ⟨offset2, hcount2, hwalk2⟩ := vec_walks hT hb hy
  have hitems : compareVecItems K x y (min a.val.length b.val.length) offset1 offset2 =
      some (comparePrefix cmp a.val b.val) := by
    unfold compareVecItems
    cases hfixed : K.fixed_width with
    | some fixed =>
      obtain ⟨encs1, hwrites1, hlen1, hwalks1, -⟩ := hwalk1.1 fixed hfixed
      obtain ⟨encs2, hwrites2, hlen2, hwalks2, -⟩ := hwalk2.1 fixed hfixed
      exact compareItems_walks hK hwrites1 hwrites2 hwalks1 hwalks2 hlen1 hlen2
    | none =>
      obtain ⟨encs1, hwrites1, hlen1, hwalks1⟩ := hwalk1.2 hfixed
      obtain ⟨encs2, hwrites2, hlen2, hwalks2⟩ := hwalk2.2 hfixed
      exact compareItems_walks hK hwrites1 hwrites2 hwalks1 hwalks2 hlen1 hlen2
  unfold vecKey
  dsimp only
  rw [hcount1, bind_eq_bind, bind_some]
  dsimp only
  rw [hcount2, bind_eq_bind, bind_some]
  dsimp only
  rw [hitems, bind_some, compareLex_eq_then]
  cases comparePrefix cmp a.val b.val <;> rfl

end Containers

/-! ## A total order -/

section Total

variable {α β : Type} {cmp : α → α → Ordering}

/-- A total order in which only equal values are equal. -/
structure Total (cmp : α → α → Ordering) : Prop where
  trans : Std.TransCmp cmp
  lawful : Std.LawfulEqCmp cmp

/-- Values ordered by something that tells them apart. -/
theorem Total.on (h : Total cmp) {f : β → α} (hf : Function.Injective f) :
    Total fun a b => cmp (f a) (f b) := by
  obtain ⟨_, _⟩ := h
  refine ⟨{ eq_swap := Std.OrientedCmp.eq_swap, isLE_trans := Std.TransCmp.isLE_trans },
    { compare_self := Std.ReflCmp.compare_self, eq_of_compare := fun he => ?_ }⟩
  exact hf (Std.LawfulEqCmp.eq_of_compare he)

theorem Total.lex (h : Total cmp) : Total (List.compareLex cmp) := by
  obtain ⟨_, _⟩ := h
  exact ⟨inferInstance, inferInstance⟩

theorem noneFirst_eq (cmp : α → α → Ordering) (a b : Option α) :
    noneFirst cmp a b = List.compareLex cmp a.toList b.toList := by
  cases a with
  | none => cases b <;> rfl
  | some a =>
    cases b with
    | none => rfl
    | some b =>
      change cmp a b = List.compareLex cmp [a] [b]
      rw [List.compareLex_cons_cons]
      cases cmp a b <;> rfl

theorem Total.noneFirst (h : Total cmp) : Total (noneFirst cmp) := by
  have heq : Types.noneFirst cmp = fun a b => List.compareLex cmp a.toList b.toList := by
    funext a b
    exact noneFirst_eq cmp a b
  rw [heq]
  refine h.lex.on fun a b hab => ?_
  have hhead := congrArg List.head? hab
  rwa [head?_toList, head?_toList] at hhead

end Total

theorem Ty.total (t : Ty) (h : t.isKey = true) : Total (t.order h) := by
  have hnat : Total (compare : Nat → Nat → Ordering) := ⟨inferInstance, inferInstance⟩
  have hint : Total (compare : Int → Int → Ordering) := ⟨inferInstance, inferInstance⟩
  have hbyte : Total (compare : UInt8 → UInt8 → Ordering) := ⟨inferInstance, inferInstance⟩
  have hchar : Total (compare : Char → Char → Ordering) := ⟨inferInstance, inferInstance⟩
  induction t with
  | unit => exact hnat.on (f := fun _ : Unit => 0) fun _ _ _ => rfl
  | bool => exact ⟨inferInstanceAs (Std.TransCmp (compare : Bool → Bool → Ordering)),
      inferInstanceAs (Std.LawfulEqCmp (compare : Bool → Bool → Ordering))⟩
  | unsigned size => exact hnat.on fun _ _ he => BitVec.eq_of_toNat_eq he
  | signed size => exact hint.on fun _ _ he => BitVec.eq_of_toInt_eq he
  | float size => cases h
  | char => exact hchar
  | str | string => exact hchar.lex.on fun _ _ he => String.toList_injective he
  | byteSlice => exact hbyte.lex
  | byteArray n => exact hbyte.lex.on Subtype.val_injective
  | option t ih => exact (ih h).noneFirst
  | array t n ih | vec t ih => exact (ih h).lex.on Subtype.val_injective

/-! ## Every key type -/

theorem Ty.key_value (t : Ty) (h : t.isKey = true) : (t.key h).toValueType = t.value := by
  induction t with
  | float size => cases h
  | option t ih => exact congrArg optionValue (ih h)
  | array t n ih => exact congrArg (arrayValue · n) (ih h)
  | vec t ih => exact congrArg vecValue (ih h)
  | unit | bool | unsigned _ | signed _ | char | str | string | byteSlice | byteArray _ => rfl

theorem Ty.ordered (t : Ty) (h : t.isKey = true) : Ordered (t.key h) (t.order h) := by
  have hlawful : ∀ (t : Ty) (h : t.isKey = true), Lawful (t.key h).toValueType := by
    intro t h
    rw [t.key_value h]
    exact t.lawful
  induction t with
  | unit => exact fun _ _ _ _ _ _ _ _ => rfl
  | bool => exact fun _ _ _ _ ha hb hx hy => compareDecoded_eq lawful_bool ha hb hx hy
  | unsigned size | signed size =>
    exact fun _ _ _ _ ha hb hx hy => compareDecoded_eq (lawful_le size.bytes) ha hb hx hy
  | float size => cases h
  | char => exact fun _ _ _ _ ha hb hx hy => compareDecoded_eq lawful_char ha hb hx hy
  | str | string => exact ordered_str
  | byteSlice => exact ordered_bytes
  | byteArray n => exact ordered_byteArray n
  | option t ih => exact ordered_option (ih h)
  | array t n ih => exact ordered_array (hlawful t h) (ih h) n
  | vec t ih => exact ordered_vec (hlawful t h) (ih h)

/-- For every key type, the encodings of two keys compare as the keys do, and that order is a total
order in which only equal keys are equal. -/
theorem encoded_keys_compare_as_the_keys (t : Ty) (hkey : t.isKey = true) :
    (∀ a b x y, t.value.as_bytes a = .ok x → t.value.as_bytes b = .ok y → x.length < 2 ^ 32 →
      y.length < 2 ^ 32 → (t.key hkey).compare x y = some (t.order hkey a b)) ∧
    Std.TransCmp (t.order hkey) ∧ ∀ a b, t.order hkey a b = .eq ↔ a = b := by
  obtain ⟨htrans, hlawful⟩ := t.total hkey
  refine ⟨fun a b x y ha hb hx hy => ?_, htrans, fun a b => ⟨fun he => ?_, ?_⟩⟩
  · rw [← t.key_value hkey] at ha hb
    exact t.ordered hkey a b x y ha hb hx hy
  · exact Std.LawfulEqCmp.eq_of_compare he
  · rintro rfl
    exact Std.ReflCmp.compare_self

/-- Two vectors of optional signed bytes, of which the one with None is the smaller. -/
theorem vectors_of_optional_numbers_compare :
    (Ty.key (.vec (.option (.signed .w8))) rfl).compare [1, 0, 0] [1, 1, 255] = some .lt := by
  have h := (encoded_keys_compare_as_the_keys (.vec (.option (.signed .w8))) rfl).1
    ⟨[none], by decide⟩ ⟨[some (255#8 : BitVec 8)], by decide⟩ [1, 0, 0] [1, 1, 255] rfl rfl
    (by decide) (by decide)
  rw [h]
  rfl

end FluxDB.Types
