import Packrat.Token.Text
import Packrat.Proofs.Text.Delimited

/-!
# The display form of a token is unambiguous

What kind of token a text begins with can be seen from the front of the text (`shapeAt?`). Then it
is enough that each kind is delimited by itself, which its payload is: bytes and byte strings stand
in quotes, and a number ends where no digit follows. Inside brackets a blank or a bracket stands
behind every item, and no more is needed to tell the item from the rest.
-/

namespace Packrat

open Text (Delimited)
open JsonText (Lacks lacks_cons opensNumber)

namespace Token

abbrev text (t : Token) : List Char := t.display.toList

/-! ## The front of a text -/

/-- What may stand behind a token: nothing, a blank or a closing bracket. -/
def Closes (r : List Char) : Prop := ∀ c ∈ r.head?, c = ' ' ∨ c = ']'

/-- The shape of the token that a text begins with. The first character tells it, or that it is a
number, and then the character behind the number tells it. -/
def shapeAt? : List Char → Option Shape
  | 'n' :: _ => some .none
  | '\x27' :: _ => some .byte
  | '"' :: _ => some .bytes
  | '[' :: _ => some .seq
  | text =>
    if text.head?.any opensNumber then
      some (if (text.dropWhile opensNumber).head? = some 'i' then .sint else .uint)
    else Option.none

section Front

variable {r : List Char}

theorem closes_nil : Closes [] := nofun

theorem closes_cons {c : Char} (hc : c = ' ' ∨ c = ']') : Closes (c :: r) := by
  intro d hd
  cases hd
  exact hc

theorem Closes.lacks (h : Closes r) {test : Char → Bool} (hblank : test ' ' = false)
    (hbracket : test ']' = false) : Lacks test r := by
  intro c hc
  rcases h c hc with rfl | rfl
  · exact hblank
  · exact hbracket

theorem shapeAt?_integer (n : Int) (hr : Lacks opensNumber r) :
    shapeAt? ((toString n).toList ++ r) = some (if r.head? = some 'i' then .sint else .uint) := by
  have hnumber := Text.opensNumber_of_mem_integer n
  have hhead : ((toString n).toList ++ r).head?.any opensNumber = true := by
    obtain ⟨c, cs, hcs⟩ := List.exists_cons_of_ne_nil (Text.integer_ne_nil n)
    rw [hcs] at hnumber ⊢
    exact hnumber c List.mem_cons_self
  have hdrop : ((toString n).toList ++ r).dropWhile opensNumber = r := by
    rw [List.dropWhile_append_of_pos hnumber]
    cases r with
    | nil => rfl
    | cons c r => rw [List.dropWhile_cons, lacks_cons.mp hr, if_neg Bool.false_ne_true]
  rw [shapeAt?.eq_def]
  split
  iterate 4
    · next heq => rw [heq] at hhead; cases hhead
  · rw [if_pos hhead, hdrop]

theorem shapeAt?_text (t : Token) (hr : Closes r) : shapeAt? (t.text ++ r) = some t.shape := by
  cases t with
  | none => rfl
  | byte b =>
      rw [text, display, Text.toList_quoteByte]
      rfl
  | uint n =>
      have hends : Lacks opensNumber r := hr.lacks rfl rfl
      have hfront := shapeAt?_integer n.toNat hends
      have hi : r.head? ≠ some 'i' := fun h => absurd (hr _ h) (by decide)
      rw [if_neg hi] at hfront
      exact hfront
  | sint n =>
      have hi : Lacks opensNumber ('i' :: r) := lacks_cons.mpr rfl
      rw [text, display, String.toList_append, List.append_assoc]
      exact shapeAt?_integer n.toInt hi
  | bytes payload =>
      rw [text, display, Text.toList_quoteBytes]
      rfl
  | seq items =>
      rw [text, display, String.toList_append, String.toList_append]
      rfl

/-- No token begins with a closing bracket. -/
theorem text_append_ne (t : Token) (r r' : List Char) : t.text ++ r ≠ ']' :: r' := by
  have hshape := shapeAt?_text t closes_nil
  rw [List.append_nil] at hshape
  cases htext : t.text with
  | nil => rw [htext] at hshape; cases hshape
  | cons c rest =>
      intro heq
      cases (List.cons.inj heq).1
      rw [htext] at hshape
      cases hshape

end Front

/-! ## Each kind of token -/

/-- A token is delimited if its payload is, since only the tokens of its kind come into
question. -/
theorem delimited_of_payload {α : Type} (make : α → Token) {render : α → List Char} {a : α}
    (hmake : ∀ u, u.shape = (make a).shape → ∃ b, u = make b)
    (htext : ∀ b, (make b).text = render b) (h : Delimited render Closes a) :
    Delimited text Closes (make a) := by
  intro u r r' hr hr' heq
  have hshape : u.shape = (make a).shape := by
    have hfront := shapeAt?_text u hr'
    rw [← heq, shapeAt?_text (make a) hr] at hfront
    exact (Option.some.inj hfront).symm
  obtain ⟨b, rfl⟩ := hmake u hshape
  rw [htext, htext] at heq
  obtain ⟨rfl, rfl⟩ := h hr hr' heq
  exact ⟨rfl, rfl⟩

theorem delimited_none : Delimited text Closes .none := by
  have hword : Delimited (fun _ : Unit => "none".toList) Closes () :=
    fun _ _ _ _ _ heq => ⟨rfl, List.append_cancel_left heq⟩
  have hmake : ∀ u : Token, u.shape = .none → ∃ _ : Unit, u = .none := by
    intro u hu
    cases u with
    | none => exact ⟨(), rfl⟩
    | _ => cases hu
  exact delimited_of_payload (fun _ => .none) hmake (fun _ => rfl) hword

theorem delimited_byte (b : UInt8) : Delimited text Closes (.byte b) := by
  refine delimited_of_payload .byte ?_ (fun _ => rfl)
    ((Text.delimited_quoteByte b).mono fun _ _ => trivial)
  intro u hu
  cases u with
  | byte c => exact ⟨c, rfl⟩
  | _ => cases hu

theorem delimited_uint (n : UInt64) : Delimited text Closes (.uint n) := by
  have hnat := (Text.delimited_natural n.toNat).comp UInt64.toNat fun _ _ => UInt64.toNat_inj.mp
  refine delimited_of_payload .uint ?_ (fun _ => rfl) (hnat.mono fun _ hr => hr.lacks rfl rfl)
  intro u hu
  cases u with
  | uint m => exact ⟨m, rfl⟩
  | _ => cases hu

/-- The mark behind a signed integer is no digit. -/
theorem delimited_sint (n : Int64) : Delimited text Closes (.sint n) := by
  have hint := (Text.delimited_integer n.toInt).comp Int64.toInt fun _ _ => Int64.toInt_inj.mp
  have hmarked : Delimited (fun n : Int64 => (toString n.toInt).toList ++ ['i'])
      (fun _ => True) n :=
    hint.concat fun _ => lacks_cons.mpr rfl
  refine delimited_of_payload .sint ?_ (fun _ => ?_) (hmarked.mono fun _ _ => trivial)
  · intro u hu
    cases u with
    | sint m => exact ⟨m, rfl⟩
    | _ => cases hu
  · rw [text, display, String.toList_append]
    rfl

theorem delimited_bytes (payload : List UInt8) : Delimited text Closes (.bytes payload) := by
  refine delimited_of_payload .bytes ?_ (fun _ => rfl)
    ((Text.delimited_quoteBytes payload).mono fun _ _ => trivial)
  intro u hu
  cases u with
  | bytes other => exact ⟨other, rfl⟩
  | _ => cases hu

/-! ## Sequences -/

/-- The texts of the items with a blank between any two, and the bracket behind. -/
def closedTexts (items : List Token) : List Char :=
  (" ".intercalate (displays items)).toList ++ [']']

theorem toList_displays_cons (t : Token) (items : List Token) :
    (" ".intercalate (displays (t :: items))).toList =
      t.text ++ items.flatMap fun u => ' ' :: u.text := by
  induction items generalizing t with
  | nil => simp [displays]
  | cons u items ih =>
      have hrest := ih u
      rw [displays] at hrest
      rw [displays, displays, String.intercalate_cons_cons, String.toList_append,
        String.toList_append, hrest, List.flatMap_cons, List.append_assoc]
      rfl

theorem delimited_closedTexts {items : List Token} (h : ∀ t ∈ items, Delimited text Closes t) :
    Delimited closedTexts (fun _ => True) items := by
  have hblank : ∀ t ∈ items, Delimited (fun u => ' ' :: text u) Closes t :=
    fun t ht => (h t ht).cons ' '
  -- With a blank in front of the first item as well, all items are written alike.
  have hrow : Delimited (fun items => items.flatMap (fun u => ' ' :: text u) ++ [']'])
      (fun _ => True) items :=
    Text.delimited_flatMap hblank (fun _ _ _ => nofun)
      (fun _ _ => closes_cons (.inl rfl)) fun _ => closes_cons (.inr rfl)
  intro others r r' hr hr' heq
  cases items with
  | nil =>
      cases others with
      | nil => exact ⟨rfl, (List.cons.inj heq).2⟩
      | cons u others =>
          simp only [closedTexts, toList_displays_cons, List.append_assoc] at heq
          exact absurd heq.symm (text_append_ne u _ r)
  | cons t items =>
      cases others with
      | nil =>
          simp only [closedTexts, toList_displays_cons, List.append_assoc] at heq
          exact absurd heq (text_append_ne t _ r')
      | cons u others =>
          simp only [closedTexts, toList_displays_cons] at heq
          exact hrow hr hr' (by simpa using heq)

theorem delimited_seq {items : List Token} (h : ∀ t ∈ items, Delimited text Closes t) :
    Delimited text Closes (.seq items) := by
  refine delimited_of_payload .seq ?_ (fun _ => ?_)
    (((delimited_closedTexts h).cons '[').mono fun _ _ => trivial)
  · intro u hu
    cases u with
    | seq others => exact ⟨others, rfl⟩
    | _ => cases hu
  · rw [text, display, String.toList_append, String.toList_append, closedTexts]
    rfl

/-! ## All tokens -/

mutual

theorem delimited_text : ∀ t : Token, Delimited text Closes t
  | .none => delimited_none
  | .byte b => delimited_byte b
  | .uint n => delimited_uint n
  | .sint n => delimited_sint n
  | .bytes payload => delimited_bytes payload
  | .seq items => delimited_seq (delimited_texts items)

theorem delimited_texts : ∀ items : List Token, ∀ t ∈ items, Delimited text Closes t
  | [] => nofun
  | t :: items => List.forall_mem_cons.mpr ⟨delimited_text t, delimited_texts items⟩

end

/-- Different tokens are displayed differently. -/
theorem display_injective : Function.Injective display := by
  intro t u h
  have htexts : t.text ++ [] = u.text ++ [] := by rw [text, text, h]
  exact (delimited_text t closes_nil closes_nil htexts).1

/-- A byte string with quotes, a blank and a bracket in it is not taken for items. -/
theorem display_injective_quoted :
    display (.seq [.bytes [0x61, 0x22, 0x20, 0x22, 0x5d]]) ≠
      display (.seq [.bytes [0x61], .bytes [0x5d]]) :=
  display_injective.ne (by decide)

end Token

end Packrat
