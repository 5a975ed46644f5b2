import Mathlib.Data.List.Forall2
import SqlCompose.Proofs.Reading.Tokens

/-!
The grammar of expressions. Its bands are the binding strengths of the operators: operators between operands
group to the left within their band, a negation stands before its operand, a test for NULL behind it, and a
membership test, the loosest of all, has a list in parentheses. What stands in parentheses binds as tightly
as an atom, and the arguments of a function stand between commas. The grammar is unambiguous: the tightest
band that holds all tokens outside parentheses is the band of the root, and the last token of that band is
the operator at the root.
-/

namespace SqlCompose

/-- What an expression reads as. -/
inductive Reading
  | column (qualifier name : String)
  | number (value : Nat)
  | text (value : String)
  | apply (op : Operator) (args : List Reading)

/-- Whether an operator stands between its operands. -/
def Operator.isBetween : Operator → Bool
  | .add | .subtract | .multiply | .divide | .equals | .greater | .less | .and | .concat => true
  | _ => false

namespace Token

/-- The band of the expressions that a token is at the root of. A comma holds expressions of all bands
apart. -/
def band : Token → Nat
  | operator op => op.precedence
  | is => Precedence.isNull
  | name _ => Precedence.call
  | comma => Precedence.statement + 1
  | _ => Precedence.atom

/-- What a token reads as that is an expression by itself. -/
def atom? : Token → Option Reading
  | column q n => some (.column q n)
  | number n => some (.number n)
  | text s => some (.text s)
  | _ => none

end Token

mutual

/-- Tokens read as an expression with the operator of a given band at its root. -/
inductive Reads : Nat → List Token → Reading → Prop
  | atom {t : Token} {r : Reading} (h : t.atom? = some r) : Reads Precedence.atom [t] r
  | enclosed {b : Nat} {ts : List Token} {r : Reading} (h : Reads b ts r) :
      Reads Precedence.atom (.opening :: (ts ++ [.closing])) r
  | invoke (f : String) :
      Reads Precedence.call [.name f, .opening, .closing] (.apply (.function f) [])
  | call (f : String) {ts : List Token} {rs : List Reading} (h : ReadsList ts rs) :
      Reads Precedence.call (.name f :: .opening :: (ts ++ [.closing])) (.apply (.function f) rs)
  | between {op : Operator} {b b' : Nat} {ts ts' : List Token} {r r' : Reading}
      (hop : op.isBetween = true) (h : Reads b ts r) (hb : b ≤ op.precedence) (h' : Reads b' ts' r')
      (hb' : b' < op.precedence) :
      Reads op.precedence (ts ++ .operator op :: ts') (.apply op [r, r'])
  | behind {b : Nat} {ts : List Token} {r : Reading} (h : Reads b ts r) (hb : b ≤ Precedence.isNull) :
      Reads Precedence.isNull (ts ++ [.is, .null]) (.apply .isNull [r])
  | before {b : Nat} {ts : List Token} {r : Reading} (h : Reads b ts r) (hb : b ≤ Precedence.negation) :
      Reads Precedence.negation (.operator .not :: ts) (.apply .not [r])
  | member {b : Nat} {ts ts' : List Token} {r : Reading} {rs : List Reading} (h : Reads b ts r)
      (hl : ReadsList ts' rs) :
      Reads Precedence.statement (ts ++ .operator .isIn :: .opening :: (ts' ++ [.closing]))
        (.apply .isIn (r :: rs))

/-- Tokens read as expressions with commas between them. -/
inductive ReadsList : List Token → List Reading → Prop
  | one {b : Nat} {ts : List Token} {r : Reading} (h : Reads b ts r) : ReadsList ts [r]
  | more {b : Nat} {ts ts' : List Token} {r : Reading} {rs : List Reading} (h : Reads b ts r)
      (hl : ReadsList ts' rs) : ReadsList (ts ++ .comma :: ts') (r :: rs)

end

/-! The loosest band outside parentheses. -/

namespace Token

/-- The loosest band of the tokens outside parentheses, when so many are open, if all are closed in the
end. -/
def peak : Nat → List Token → Option Nat
  | 0, [] => some 0
  | _ + 1, [] => none
  | d, opening :: ts => peak (d + 1) ts
  | 0, closing :: _ => none
  | d + 1, closing :: ts => peak d ts
  | 0, t :: ts => (peak 0 ts).map (max t.band)
  | d + 1, _ :: ts => peak (d + 1) ts

variable {ts us ts' us' : List Token} {d m n q : Nat} {t t' : Token}

/-- A token that is no parenthesis. -/
def plain (t : Token) : Prop := t ≠ opening ∧ t ≠ closing

theorem peak_opening : peak d (opening :: ts) = peak (d + 1) ts := by
  cases d <;> rfl

theorem peak_plain (ht : t.plain) : peak 0 (t :: ts) = (peak 0 ts).map (max t.band) := by
  cases t <;> simp [peak, plain] at ht ⊢

theorem peak_plain_succ (ht : t.plain) : peak (d + 1) (t :: ts) = peak (d + 1) ts := by
  cases t <;> simp [peak, plain] at ht ⊢

theorem opening_or_closing_or_plain (t : Token) : t = opening ∨ t = closing ∨ t.plain := by
  rw [plain, ← not_or, ← or_assoc]
  exact Classical.em _

/-- Behind closed parentheses the loosest band is that of the two parts. -/
theorem peak_append : ∀ {ts : List Token} {d m : Nat}, peak d ts = some m →
    peak d (ts ++ us) = (peak 0 us).map (max m)
  | [], 0, m, h => by
      obtain rfl := Option.some.inj h
      cases hus : peak 0 us <;> simp [hus]
  | [], d + 1, m, h => nomatch h
  | t :: ts, d, m, h => by
      rw [List.cons_append]
      obtain rfl | rfl | ht := t.opening_or_closing_or_plain
      · rw [peak_opening] at h ⊢
        exact peak_append h
      · cases d with
        | zero => cases h
        | succ d => exact peak_append (d := d) h
      · cases d with
        | zero =>
            rw [peak_plain ht, Option.map_eq_some_iff] at h
            obtain ⟨n, hn, rfl⟩ := h
            rw [peak_plain ht, peak_append hn, Option.map_map]
            exact congrArg (Option.map · _) (funext fun k => (Nat.max_assoc ..).symm)
        | succ d =>
            rw [peak_plain_succ ht] at h ⊢
            exact peak_append h

/-- Tokens in parentheses do not count. -/
theorem peak_skip : ∀ {ts : List Token} {d m : Nat}, peak d ts = some m →
    peak (d + 1) (ts ++ us) = peak 1 us
  | [], 0, _, _ => rfl
  | [], d + 1, _, h => nomatch h
  | t :: ts, d, m, h => by
      rw [List.cons_append]
      obtain rfl | rfl | ht := t.opening_or_closing_or_plain
      · rw [peak_opening] at h ⊢
        exact peak_skip h
      · cases d with
        | zero => cases h
        | succ d => exact peak_skip (d := d) h
      · rw [peak_plain_succ ht]
        cases d with
        | zero =>
            rw [peak_plain ht, Option.map_eq_some_iff] at h
            obtain ⟨n, hn, -⟩ := h
            exact peak_skip hn
        | succ d =>
            rw [peak_plain_succ ht] at h
            exact peak_skip h

theorem peak_parenthesised (h : peak 0 ts = some m) : peak 0 (opening :: (ts ++ [closing])) = some 0 := by
  rw [peak_opening, peak_skip h]
  rfl

theorem exists_peak_of_append (h : peak 0 (ts ++ t :: us) = some m) (hts : peak 0 ts = some n)
    (ht : t.plain) : ∃ k, peak 0 us = some k ∧ m = max n (max t.band k) := by
  rw [peak_append hts, peak_plain ht, Option.map_map, Option.map_eq_some_iff] at h
  obtain ⟨k, hk, hm⟩ := h
  exact ⟨k, hk, hm.symm⟩

/-- A token that stands outside parentheses is no looser than all tokens together. -/
theorem band_le_peak (h : peak 0 (ts ++ t :: us) = some m) (hts : peak 0 ts = some n) (ht : t.plain) :
    t.band ≤ m := by
  obtain ⟨k, -, rfl⟩ := exists_peak_of_append h hts ht
  exact Nat.le_trans (Nat.le_max_left ..) (Nat.le_max_right ..)

/-- Two splits of the same tokens: they are one, or one of the two tokens stands in front of the other. -/
theorem splits (h : ts ++ t :: us = ts' ++ t' :: us') : (ts = ts' ∧ t = t' ∧ us = us') ∨
    (∃ vs, ts' = ts ++ t :: vs ∧ us = vs ++ t' :: us') ∨
      ∃ vs, ts = ts' ++ t' :: vs ∧ us' = vs ++ t :: us := by
  obtain ⟨vs, hts, hus⟩ | ⟨vs, hts, hus⟩ := List.append_eq_append_iff.mp h
  · cases vs with
    | nil =>
        rw [List.append_nil] at hts
        exact .inl ⟨hts.symm, List.cons_eq_cons.mp hus⟩
    | cons v vs =>
        obtain ⟨rfl, hrest⟩ := List.cons_eq_cons.mp hus
        exact .inr (.inl ⟨vs, hts, hrest⟩)
  · cases vs with
    | nil =>
        rw [List.append_nil] at hts
        exact .inl ⟨hts, (List.cons_eq_cons.mp hus).imp Eq.symm Eq.symm⟩
    | cons v vs =>
        obtain ⟨rfl, hrest⟩ := List.cons_eq_cons.mp hus
        exact .inr (.inr ⟨vs, hts, hrest⟩)

/-- Two tokens of one band, with tighter ones behind both, do not stand one behind the other. -/
theorem no_later_split (ht : t.plain) (ht' : t'.plain) (hts : peak 0 ts = some m)
    (hts' : peak 0 (ts ++ t :: us) = some n) (hus : ∃ k < t'.band, peak 0 (us ++ t' :: us') = some k) :
    False := by
  obtain ⟨k, hk, hpeak⟩ := hus
  obtain ⟨j, hj, -⟩ := exists_peak_of_append hts' hts ht
  exact absurd (band_le_peak hpeak hj ht') (Nat.not_le.mpr hk)

/-- A token with tighter ones behind it is the last of its band. -/
theorem split_last (h : ts ++ t :: us = ts' ++ t' :: us') (ht : t.plain) (ht' : t'.plain)
    (hband : t.band = t'.band) (hts : peak 0 ts = some m) (hts' : peak 0 ts' = some n)
    (hus : ∃ k < t.band, peak 0 us = some k) (hus' : ∃ k < t'.band, peak 0 us' = some k) :
    ts = ts' ∧ t = t' ∧ us = us' := by
  obtain heq | ⟨vs, rfl, rfl⟩ | ⟨vs, rfl, rfl⟩ := splits h
  · exact heq
  · rw [hband] at hus
    exact (no_later_split ht ht' hts hts' hus).elim
  · rw [← hband] at hus'
    exact (no_later_split ht' ht hts' hts hus').elim

/-- A token with tighter ones in front of it is the first of its band. -/
theorem split_first (h : ts ++ t :: us = ts' ++ t :: us') (ht : t.plain)
    (hts : ∃ k < t.band, peak 0 ts = some k) (hts' : ∃ k < t.band, peak 0 ts' = some k) :
    ts = ts' ∧ us = us' := by
  obtain ⟨m, hm, hts⟩ := hts
  obtain ⟨n, hn, hts'⟩ := hts'
  obtain ⟨rfl, -, rfl⟩ | ⟨vs, rfl, -⟩ | ⟨vs, rfl, -⟩ := splits h
  · exact ⟨rfl, rfl⟩
  · exact absurd (band_le_peak hts' hts ht) (Nat.not_le.mpr hn)
  · exact absurd (band_le_peak hts hts' ht) (Nat.not_le.mpr hm)

end Token

/-! The band of the root. -/

theorem Operator.precedence_of_isBetween {op : Operator} (h : op.isBetween = true) :
    op.precedence ∉ [Precedence.atom, Precedence.call, Precedence.isNull, Precedence.negation] ∧
      op.precedence < Precedence.statement := by
  cases op <;> first | (cases h; done) | decide

theorem Token.peak_atom {t : Token} {r : Reading} (h : t.atom? = some r) :
    peak 0 [t] = some Precedence.atom := by
  cases t <;> first | (cases h; done) | rfl

theorem Token.plain_operator (op : Operator) : (operator op).plain := ⟨nofun, nofun⟩

theorem Token.plain_name (f : String) : (name f).plain := ⟨nofun, nofun⟩

theorem Token.plain_comma : comma.plain := ⟨nofun, nofun⟩

mutual

/-- The loosest band outside parentheses is the band of the root, and tighter than a comma. -/
theorem Reads.peak_eq : ∀ {b : Nat} {ts : List Token} {r : Reading}, Reads b ts r →
    Token.peak 0 ts = some b ∧ b < Token.comma.band
  | _, _, _, .atom h => ⟨Token.peak_atom h, by decide⟩
  | _, _, _, .enclosed h => ⟨Token.peak_parenthesised h.peak_eq.1, by decide⟩
  | _, _, _, .invoke f => ⟨rfl, by decide⟩
  | _, _, _, .call f h => by
      obtain ⟨m, hm⟩ := h.exists_peak
      refine ⟨?_, by decide⟩
      rw [Token.peak_plain (Token.plain_name f), Token.peak_parenthesised hm]
      rfl
  | _, _, _, .between hop h hb h' hb' => by
      refine ⟨?_, Nat.lt_trans (Operator.precedence_of_isBetween hop).2 (by decide)⟩
      rw [Token.peak_append h.peak_eq.1, Token.peak_plain (Token.plain_operator _), h'.peak_eq.1]
      exact congrArg some (by rw [Token.band, Nat.max_eq_left (Nat.le_of_lt hb'), Nat.max_eq_right hb])
  | _, _, _, .behind h hb => by
      refine ⟨?_, by decide⟩
      rw [Token.peak_append h.peak_eq.1]
      exact congrArg some (Nat.max_eq_right hb)
  | _, _, _, .before h hb => by
      refine ⟨?_, by decide⟩
      rw [Token.peak_plain (Token.plain_operator _), h.peak_eq.1]
      exact congrArg some (Nat.max_eq_left hb)
  | _, _, _, .member h hl => by
      obtain ⟨m, hm⟩ := hl.exists_peak
      refine ⟨?_, by decide⟩
      rw [Token.peak_append h.peak_eq.1, Token.peak_plain (Token.plain_operator _),
        Token.peak_parenthesised hm]
      exact congrArg some (Nat.max_eq_right (Nat.le_of_lt_succ h.peak_eq.2))

theorem ReadsList.exists_peak : ∀ {ts : List Token} {rs : List Reading}, ReadsList ts rs →
    ∃ m, Token.peak 0 ts = some m
  | _, _, .one h => ⟨_, h.peak_eq.1⟩
  | _, _, .more h hl => by
      obtain ⟨m, hm⟩ := hl.exists_peak
      rw [Token.peak_append h.peak_eq.1, Token.peak_plain Token.plain_comma, hm]
      exact ⟨_, rfl⟩

end

theorem Reads.ne_nil {b : Nat} {ts : List Token} {r : Reading} (h : Reads b ts r) : ts ≠ [] := by
  cases h <;> simp

theorem ReadsList.ne_nil {ts : List Token} {rs : List Reading} (h : ReadsList ts rs) : ts ≠ [] := by
  cases h with
  | one h => exact h.ne_nil
  | more h hl => simp

/-! What the band of the root tells. -/

namespace Reads

variable {b b' : Nat} {ts : List Token} {r r' : Reading} {op : Operator}

theorem atom_inv (h : Reads b ts r) (hb : b = Precedence.atom) :
    (∃ t, ts = [t] ∧ t.atom? = some r) ∨ ∃ b' us, ts = .opening :: (us ++ [.closing]) ∧ Reads b' us r := by
  cases h with
  | atom h => exact .inl ⟨_, rfl, h⟩
  | enclosed h => exact .inr ⟨_, _, rfl, h⟩
  | between hop => exact absurd (Operator.precedence_of_isBetween hop).1 (by simp [hb])
  | _ => cases hb

theorem call_inv (h : Reads b ts r) (hb : b = Precedence.call) :
    (∃ f, ts = [.name f, .opening, .closing] ∧ r = .apply (.function f) []) ∨
      ∃ f us rs, ts = .name f :: .opening :: (us ++ [.closing]) ∧ ReadsList us rs ∧
        r = .apply (.function f) rs := by
  cases h with
  | invoke f => exact .inl ⟨f, rfl, rfl⟩
  | call f h => exact .inr ⟨f, _, _, rfl, h, rfl⟩
  | between hop => exact absurd (Operator.precedence_of_isBetween hop).1 (by simp [hb])
  | _ => cases hb

theorem behind_inv (h : Reads b ts r) (hb : b = Precedence.isNull) :
    ∃ b' us r', ts = us ++ [.is, .null] ∧ Reads b' us r' ∧ r = .apply .isNull [r'] := by
  cases h with
  | behind h => exact ⟨_, _, _, rfl, h, rfl⟩
  | between hop => exact absurd (Operator.precedence_of_isBetween hop).1 (by simp [hb])
  | _ => cases hb

theorem before_inv (h : Reads b ts r) (hb : b = Precedence.negation) :
    ∃ b' us r', ts = .operator .not :: us ∧ Reads b' us r' ∧ r = .apply .not [r'] := by
  cases h with
  | before h => exact ⟨_, _, _, rfl, h, rfl⟩
  | between hop => exact absurd (Operator.precedence_of_isBetween hop).1 (by simp [hb])
  | _ => cases hb

theorem member_inv (h : Reads b ts r) (hb : b = Precedence.statement) :
    ∃ b' us vs r' rs, ts = us ++ .operator .isIn :: .opening :: (vs ++ [.closing]) ∧ Reads b' us r' ∧
      ReadsList vs rs ∧ r = .apply .isIn (r' :: rs) := by
  cases h with
  | member h hl => exact ⟨_, _, _, _, _, rfl, h, hl, rfl⟩
  | between hop => exact absurd (Operator.precedence_of_isBetween hop).2 (by simp [hb])
  | _ => cases hb

theorem between_inv (h : Reads b ts r) (hop : op.isBetween = true) (hb : b = op.precedence) :
    ∃ op' b₁ b₂ us vs r₁ r₂, op'.isBetween = true ∧ op'.precedence = op.precedence ∧
      ts = us ++ .operator op' :: vs ∧ (Reads b₁ us r₁ ∧ b₁ ≤ op.precedence) ∧
        (Reads b₂ vs r₂ ∧ b₂ < op.precedence) ∧ r = .apply op' [r₁, r₂] := by
  cases h with
  | between hop' h hle h' hlt =>
      rw [hb] at hle hlt
      exact ⟨_, _, _, _, _, _, _, hop', hb, rfl, ⟨h, hle⟩, ⟨h', hlt⟩, rfl⟩
  | member => exact absurd (Operator.precedence_of_isBetween hop).2 (by simp [← hb])
  | _ => exact absurd (Operator.precedence_of_isBetween hop).1 (by simp [← hb])

end Reads

theorem ReadsList.inv {ts : List Token} {rs : List Reading} (h : ReadsList ts rs) :
    (∃ b r, Reads b ts r ∧ rs = [r]) ∨
      ∃ b us vs r rs', ts = us ++ .comma :: vs ∧ Reads b us r ∧ ReadsList vs rs' ∧ rs = r :: rs' := by
  cases h with
  | one h => exact .inl ⟨_, _, h, rfl⟩
  | more h hl => exact .inr ⟨_, _, _, _, _, rfl, h, hl, rfl⟩

/-! Only one thing can be read. -/

theorem Reads.band_unique {b b' : Nat} {ts : List Token} {r r' : Reading} (h : Reads b ts r)
    (h' : Reads b' ts r') : b' = b :=
  Option.some.inj (h'.peak_eq.1.symm.trans h.peak_eq.1)

/-- An expression has no comma outside parentheses. -/
theorem Reads.no_comma {b b' : Nat} {ts us : List Token} {r r' : Reading}
    (h : Reads b (ts ++ .comma :: us) r) (h' : Reads b' ts r') : False :=
  absurd (Token.band_le_peak h.peak_eq.1 h'.peak_eq.1 Token.plain_comma) (Nat.not_le.mpr h.peak_eq.2)

theorem Token.parenthesised_inj {us vs : List Token}
    (h : opening :: (us ++ [closing]) = opening :: (vs ++ [closing])) : us = vs :=
  List.append_inj_left' (List.cons_eq_cons.mp h).2 rfl

mutual

/-- Tokens read as one expression at most. -/
theorem Reads.unique : ∀ {b : Nat} {ts : List Token} {r : Reading}, Reads b ts r →
    ∀ {b' : Nat} {r' : Reading}, Reads b' ts r' → r = r'
  | _, _, _, .atom ht, _, _, h' => by
      obtain ⟨t, heq, ht'⟩ | ⟨_, us, heq, -⟩ := h'.atom_inv ((Reads.atom ht).band_unique h')
      · obtain ⟨rfl, -⟩ := List.cons_eq_cons.mp heq
        exact Option.some.inj (ht.symm.trans ht')
      · obtain ⟨rfl, -⟩ := List.cons_eq_cons.mp heq
        cases ht
  | _, _, _, .enclosed h, _, _, h' => by
      obtain ⟨t, heq, ht'⟩ | ⟨_, us, heq, hus⟩ := h'.atom_inv (h.enclosed.band_unique h')
      · obtain ⟨rfl, -⟩ := List.cons_eq_cons.mp heq
        cases ht'
      · obtain rfl := Token.parenthesised_inj heq
        exact h.unique hus
  | _, _, _, .invoke f, _, _, h' => by
      obtain ⟨f', heq, rfl⟩ | ⟨f', us, rs, heq, hus, rfl⟩ := h'.call_inv ((Reads.invoke f).band_unique h')
      · cases heq
        rfl
      · have hempty : [] = us := Token.parenthesised_inj (List.cons_eq_cons.mp heq).2
        exact absurd hempty.symm hus.ne_nil
  | _, _, _, .call f h, _, _, h' => by
      obtain ⟨f', heq, rfl⟩ | ⟨f', us, rs, heq, hus, rfl⟩ := h'.call_inv ((Reads.call f h).band_unique h')
      · exact absurd (Token.parenthesised_inj (List.cons_eq_cons.mp heq).2) h.ne_nil
      · obtain ⟨hname, htail⟩ := List.cons_eq_cons.mp heq
        cases hname
        obtain rfl := Token.parenthesised_inj htail
        rw [h.unique hus]
  -- The operator at the root is the last of its band, whichever operators of the band stand in front of it.
  | _, _, _, .between hop h hb h₂ hb₂, _, _, h' => by
      obtain ⟨op', b₁, b₂, us, vs, r₁, r₂, hop', hband, heq, ⟨hus, -⟩, ⟨hvs, hlt⟩, rfl⟩ :=
        h'.between_inv hop ((Reads.between hop h hb h₂ hb₂).band_unique h')
      obtain ⟨rfl, hop, rfl⟩ := Token.split_last heq (Token.plain_operator _) (Token.plain_operator _)
        hband.symm h.peak_eq.1 hus.peak_eq.1 ⟨_, hb₂, h₂.peak_eq.1⟩
        ⟨_, Nat.lt_of_lt_of_eq hlt hband.symm, hvs.peak_eq.1⟩
      cases hop
      rw [h.unique hus, h₂.unique hvs]
  | _, _, _, .behind h hb, _, _, h' => by
      obtain ⟨_, us, r', heq, hus, rfl⟩ := h'.behind_inv ((h.behind hb).band_unique h')
      obtain rfl := List.append_inj_left' heq rfl
      rw [h.unique hus]
  | _, _, _, .before h hb, _, _, h' => by
      obtain ⟨_, us, r', heq, hus, rfl⟩ := h'.before_inv ((h.before hb).band_unique h')
      obtain ⟨-, rfl⟩ := List.cons_eq_cons.mp heq
      rw [h.unique hus]
  | _, _, _, .member h hl, _, _, h' => by
      obtain ⟨_, us, vs, r', rs, heq, hus, hvs, rfl⟩ := h'.member_inv ((h.member hl).band_unique h')
      obtain ⟨m, hm⟩ := hl.exists_peak
      obtain ⟨n, hn⟩ := hvs.exists_peak
      obtain ⟨rfl, -, htail⟩ := Token.split_last heq (Token.plain_operator _) (Token.plain_operator _) rfl
        h.peak_eq.1 hus.peak_eq.1 ⟨_, by decide, Token.peak_parenthesised hm⟩
        ⟨_, by decide, Token.peak_parenthesised hn⟩
      obtain rfl := Token.parenthesised_inj htail
      rw [h.unique hus, hl.unique hvs]

theorem ReadsList.unique : ∀ {ts : List Token} {rs : List Reading}, ReadsList ts rs →
    ∀ {rs' : List Reading}, ReadsList ts rs' → rs = rs'
  | _, _, .one h, _, h' => by
      obtain ⟨_, r, hr, rfl⟩ | ⟨_, us, vs, r, rs, rfl, hus, -, -⟩ := h'.inv
      · rw [h.unique hr]
      · exact (h.no_comma hus).elim
  | _, _, .more h hl, _, h' => by
      obtain ⟨_, r, hr, rfl⟩ | ⟨_, us, vs, r, rs, heq, hus, hvs, rfl⟩ := h'.inv
      · exact (hr.no_comma h).elim
      · obtain ⟨rfl, rfl⟩ := Token.split_first heq Token.plain_comma ⟨_, h.peak_eq.2, h.peak_eq.1⟩
          ⟨_, hus.peak_eq.2, hus.peak_eq.1⟩
        rw [h.unique hus, hl.unique hvs]

end

/-! Grouping. -/

/-- Readings that differ at most in how operators of one band are grouped. -/
inductive Regrouped : Reading → Reading → Prop
  | refl (r : Reading) : Regrouped r r
  | symm {r r' : Reading} (h : Regrouped r r') : Regrouped r' r
  | trans {r₁ r₂ r₃ : Reading} (h : Regrouped r₁ r₂) (h' : Regrouped r₂ r₃) : Regrouped r₁ r₃
  | arg (op : Operator) (before behind : List Reading) {r r' : Reading} (h : Regrouped r r') :
      Regrouped (.apply op (before ++ r :: behind)) (.apply op (before ++ r' :: behind))
  /-- An operator of more than two operands groups the first two of them. -/
  | first {op : Operator} (hop : op.isBetween = true) (r₁ r₂ r₃ : Reading) (rest : List Reading) :
      Regrouped (.apply op (r₁ :: r₂ :: r₃ :: rest)) (.apply op (.apply op [r₁, r₂] :: r₃ :: rest))
  /-- Of two operators of one band, the second is at the root instead of the first. -/
  | rotate {op op' : Operator} (hop : op.isBetween = true) (hop' : op'.isBetween = true)
      (hband : op'.precedence = op.precedence) (r₁ r₂ r₃ : Reading) :
      Regrouped (.apply op [r₁, .apply op' [r₂, r₃]]) (.apply op' [.apply op [r₁, r₂], r₃])

namespace Regrouped

/-- Operands are grouped one by one. -/
theorem args (op : Operator) : ∀ {rs xs : List Reading} (before : List Reading),
    List.Forall₂ Regrouped rs xs → Regrouped (.apply op (before ++ rs)) (.apply op (before ++ xs))
  | _, _, before, .nil => .refl _
  | _ :: rs, x :: xs, before, .cons h hs => by
      have hrest := args op (before ++ [x]) hs
      rw [List.append_assoc, List.append_assoc] at hrest
      exact .trans (.arg op before rs h) hrest

theorem apply {op : Operator} {rs xs : List Reading} (h : List.Forall₂ Regrouped rs xs) :
    Regrouped (.apply op rs) (.apply op xs) := args op [] h

end Regrouped

/-- An operator between two operands, of which also the second may have an operator of the band at its
root: what is read is grouped to the left. -/
theorem Reads.graft {op : Operator} {b b' : Nat} {ts ts' : List Token} {r r' : Reading}
    (hop : op.isBetween = true) (h : Reads b ts r) (hb : b ≤ op.precedence) (h' : Reads b' ts' r')
    (hb' : b' ≤ op.precedence) :
    ∃ x, Reads op.precedence (ts ++ .operator op :: ts') x ∧ Regrouped (.apply op [r, r']) x := by
  obtain hlt | heq := Nat.lt_or_eq_of_le hb'
  · exact ⟨_, .between hop h hb h' hlt, .refl _⟩
  -- The root of the second operand becomes the root of everything, and its left part is grafted again.
  · obtain ⟨op', b₁, b₂, us, vs, r₁, r₂, hop', hband, rfl, ⟨hus, hle⟩, ⟨hvs, hlt⟩, rfl⟩ :=
      h'.between_inv hop heq
    obtain ⟨x, hx, hgroup⟩ := Reads.graft hop h hb hus hle
    have hroot := Reads.between hop' hx (Nat.le_of_eq hband.symm) hvs (Nat.lt_of_lt_of_eq hlt hband.symm)
    rw [hband, List.append_assoc, List.cons_append] at hroot
    exact ⟨_, hroot, .trans (.rotate hop hop' hband r r₁ r₂) (.arg op' [] [r₂] hgroup)⟩
termination_by ts'.length

end SqlCompose
