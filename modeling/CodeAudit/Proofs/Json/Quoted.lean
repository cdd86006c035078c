import CodeAudit.Json.Reader

set_option autoImplicit false

namespace CodeAudit.Json.Reader

theorem unit?_eq_some {s r : List Char} {u : Nat} (h : unit? s = some (u, r)) :
    ∃ a b c d, s = a :: b :: c :: d :: r ∧ ∀ k, unit? (a :: b :: c :: d :: k) = some (u, k) := by
  unfold unit? at h
  split at h
  · rename_i a b c d r'
    simp only [Option.bind_eq_bind, Option.bind_eq_some_iff, Option.pure_def, Option.some.injEq,
      Prod.mk.injEq] at h
    obtain ⟨va, ha, vb, hb, vc, hc, vd, hd, hu, rfl⟩ := h
    exact ⟨a, b, c, d, rfl, fun k => by simp [unit?, ha, hb, hc, hd, hu]⟩
  · cases h

theorem unit?_suffix {s r : List Char} {u : Nat} (h : unit? s = some (u, r)) : r <:+ s := by
  obtain ⟨a, b, c, d, rfl, -⟩ := unit?_eq_some h
  exact ⟨[a, b, c, d], rfl⟩

theorem unit?_append {s r : List Char} {u : Nat} (h : unit? s = some (u, r)) (k : List Char) :
    unit? (s ++ k) = some (u, r ++ k) := by
  obtain ⟨a, b, c, d, rfl, hk⟩ := unit?_eq_some h
  exact hk (r ++ k)

/-- What an escape of four digits gives: a high and a low unit side by side are one letter. -/
inductive EscapeStep (s : List Char) : Letter → List Char → Prop where
  | pair {u v : Nat} {r r' : List Char} (hu : unit? s = some (u, '\\' :: 'u' :: r))
      (hh : isHigh u) (hv : unit? r = some (v, r')) (hl : isLow v) :
      EscapeStep s (.char (Char.ofNat ((u - 0xd800) * 1024 + (v - 0xdc00) + 0x10000))) r'
  | high {u v : Nat} {r r' : List Char} (hu : unit? s = some (u, '\\' :: 'u' :: r))
      (hh : isHigh u) (hv : unit? r = some (v, r')) (hl : isLow v = false) :
      EscapeStep s (.half u) ('\\' :: 'u' :: r)
  | alone {u : Nat} {r : List Char} (hu : unit? s = some (u, r)) (hh : isHigh u)
      (hr : ∀ r', r ≠ '\\' :: 'u' :: r') : EscapeStep s (.half u) r
  | low {u : Nat} {r : List Char} (hu : unit? s = some (u, r)) (hh : isHigh u = false)
      (hl : isLow u) : EscapeStep s (.half u) r
  | char {u : Nat} {r : List Char} (hu : unit? s = some (u, r)) (hh : isHigh u = false)
      (hl : isLow u = false) : EscapeStep s (.char (Char.ofNat u)) r

theorem escaped?_iff {s r : List Char} {l : Letter} :
    escaped? s = some (l, r) ↔ EscapeStep s l r := by
  constructor
  · intro h
    unfold escaped? at h
    cases hu : unit? s with
    | none => simp [hu] at h
    | some x =>
      obtain ⟨u, r₀⟩ := x
      simp only [hu, Option.bind_eq_bind, Option.bind_some] at h
      split at h
      · rename_i hh
        split at h
        · rename_i r₁
          cases hv : unit? r₁ with
          | none => simp [hv] at h
          | some y =>
            obtain ⟨v, r₂⟩ := y
            simp only [hv, Option.bind_some] at h
            cases hl : isLow v <;> simp only [hl] at h <;> cases h
            · exact .high hu hh hv hl
            · exact .pair hu hh hv hl
        · cases h
          exact .alone hu hh (by simp_all)
      · rename_i hh
        have hh := Bool.eq_false_iff.2 hh
        cases hl : isLow u <;> simp only [hl] at h <;> cases h
        · exact .char hu hh hl
        · exact .low hu hh hl
  · intro h
    cases h with
    | pair hu hh hv hl => simp [escaped?, hu, hh, hv, hl]
    | high hu hh hv hl => simp [escaped?, hu, hh, hv, hl]
    | alone hu hh hr => simp [escaped?, hu, hh]
    | low hu hh hl => simp [escaped?, hu, hh, hl]
    | char hu hh hl => simp [escaped?, hu, hh, hl]

theorem escaped?_suffix {s r : List Char} {l : Letter} (h : escaped? s = some (l, r)) :
    r <:+ s := by
  cases escaped?_iff.1 h with
  | pair hu hh hv hl =>
    exact (unit?_suffix hv).trans (((List.suffix_cons _ _).trans (List.suffix_cons _ _)).trans
      (unit?_suffix hu))
  | high hu | alone hu | low hu | char hu => exact unit?_suffix hu

/-- A lone high half at the very end could still find its other half in what comes behind. -/
theorem escaped?_append {s r : List Char} {l : Letter} (h : escaped? s = some (l, r))
    (hr : r ≠ []) (hr' : r ≠ ['\\']) (k : List Char) : escaped? (s ++ k) = some (l, r ++ k) := by
  cases escaped?_iff.1 h with
  | pair hu hh hv hl => exact escaped?_iff.2 (.pair (unit?_append hu k) hh (unit?_append hv k) hl)
  | high hu hh hv hl => exact escaped?_iff.2 (.high (unit?_append hu k) hh (unit?_append hv k) hl)
  | alone hu hh hs =>
    refine escaped?_iff.2 (.alone (unit?_append hu k) hh ?_)
    match r, hr, hr', hs with
    | [c], _, hr', _ => grind
    | c :: d :: r, _, _, hs => grind
  | low hu hh hl => exact escaped?_iff.2 (.low (unit?_append hu k) hh hl)
  | char hu hh hl => exact escaped?_iff.2 (.char (unit?_append hu k) hh hl)


/-- What stands at the front of the rest of a string literal. -/
inductive PieceStep : List Char → Option Letter → List Char → Prop where
  | quote (r : List Char) : PieceStep ('"' :: r) none r
  | unit {s r : List Char} {l : Letter} (h : escaped? s = some (l, r)) :
      PieceStep ('\\' :: 'u' :: s) (some l) r
  | escape {c d : Char} (r : List Char) (hc : c ≠ 'u') (h : simpleEscape? c = some d) :
      PieceStep ('\\' :: c :: r) (some (.char d)) r
  | char {c : Char} (r : List Char) (hq : c ≠ '"') (hb : c ≠ '\\') (hc : ¬c.toNat < 0x20) :
      PieceStep (c :: r) (some (.char c)) r

theorem piece?_iff {s r : List Char} {o : Option Letter} :
    piece? s = some (o, r) ↔ PieceStep s o r := by
  constructor
  · intro h
    unfold piece? at h
    split at h
    · cases h
    · cases h
      exact .quote r
    · rename_i s
      cases he : escaped? s with
      | none => simp [he] at h
      | some x =>
        obtain ⟨l, r₁⟩ := x
        simp only [he, Option.map_some] at h
        cases h
        exact .unit he
    · rename_i c r₀ hc
      cases hd : simpleEscape? c with
      | none => simp [hd] at h
      | some d =>
        simp only [hd, Option.map_some] at h
        cases h
        exact .escape _ (by simpa using hc) hd
    · cases h
    · rename_i c r₀ hq hu he hn
      split at h
      · cases h
      · rename_i hc
        cases h
        refine .char _ (by simpa using hq) ?_ hc
        rintro rfl
        cases r with
        | nil => exact hn rfl rfl
        | cons d r => exact he d r rfl rfl
  · intro h
    cases h with
    | quote r => rfl
    | unit h => simp [piece?, h]
    | escape r hc h => simp [piece?, h]
    | char r hq hb hc =>
      rename_i c
      unfold piece?
      split <;> simp_all

theorem string?_rest {fuel : Nat} {s r : List Char} {ls : List Letter}
    (h : string? fuel s = some (ls, r)) : s ≠ [] ∧ s ≠ ['\\'] := by
  cases fuel with
  | zero => cases h
  | succ fuel => constructor <;> rintro rfl <;> simp [string?, piece?] at h

theorem piece?_append {s r : List Char} {o : Option Letter} (h : piece? s = some (o, r))
    (hr : o.isSome → r ≠ [] ∧ r ≠ ['\\']) (k : List Char) :
    piece? (s ++ k) = some (o, r ++ k) := by
  cases piece?_iff.1 h with
  | quote r => exact piece?_iff.2 (.quote _)
  | unit h => exact piece?_iff.2 (.unit (escaped?_append h (hr rfl).1 (hr rfl).2 k))
  | escape r hc hd => exact piece?_iff.2 (.escape _ hc hd)
  | char r hq hb hc => exact piece?_iff.2 (.char _ hq hb hc)

theorem piece?_suffix {s r : List Char} {o : Option Letter} (h : piece? s = some (o, r)) :
    r <:+ s := by
  cases piece?_iff.1 h with
  | quote r => exact List.suffix_cons _ _
  | unit h =>
    exact (escaped?_suffix h).trans ((List.suffix_cons _ _).trans (List.suffix_cons _ _))
  | escape r hc h => exact (List.suffix_cons _ _).trans (List.suffix_cons _ _)
  | char r hq hb hc => exact List.suffix_cons _ _

theorem string?_append {fuel fuel' : Nat} {s r : List Char} {ls : List Letter}
    (h : string? fuel s = some (ls, r)) (hf : fuel ≤ fuel') (k : List Char) :
    string? fuel' (s ++ k) = some (ls, r ++ k) := by
  induction fuel generalizing fuel' s ls with
  | zero => cases h
  | succ fuel ih =>
    obtain ⟨fuel', rfl⟩ : ∃ n, fuel' = n + 1 := ⟨fuel' - 1, by omega⟩
    rw [string?] at h
    split at h
    · cases h
    · rename_i hp
      cases h
      simp [string?, piece?_append hp (by simp) k]
    · rename_i l r₁ hp
      obtain ⟨⟨ls, r⟩, hs, hl⟩ := Option.map_eq_some_iff.1 h
      cases hl
      have hi := ih hs (Nat.le_of_succ_le_succ hf)
      simp [string?, piece?_append hp (fun _ => string?_rest hs) k, hi]

theorem string?_suffix {fuel : Nat} {s r : List Char} {ls : List Letter}
    (h : string? fuel s = some (ls, r)) : r <:+ s := by
  induction fuel generalizing s ls with
  | zero => cases h
  | succ fuel ih =>
    rw [string?] at h
    split at h
    · cases h
    · rename_i hp
      cases h
      exact piece?_suffix hp
    · rename_i l r₁ hp
      obtain ⟨⟨ls, r⟩, hs, hl⟩ := Option.map_eq_some_iff.1 h
      cases hl
      exact (ih hs).trans (piece?_suffix hp)

theorem readString_eq_ok {s r : List Char} {t : LooseText} :
    readString s = .ok (t, r) ↔
      ∃ ls, string? (s.length + 1) s = some (ls, r) ∧ t = .ofLetters ls := by
  cases hs : string? (s.length + 1) s with
  | none => simp [readString, hs]
  | some x =>
    obtain ⟨ls, r'⟩ := x
    simp only [readString, hs, Except.ok.injEq, Option.some.injEq, Prod.mk.injEq]
    constructor
    · rintro ⟨rfl, rfl⟩
      exact ⟨ls, ⟨rfl, rfl⟩, rfl⟩
    · rintro ⟨_, ⟨rfl, rfl⟩, rfl⟩
      exact ⟨rfl, rfl⟩

theorem readString_ne_excess (s : List Char) (e : Excess) : readString s ≠ .error (.excess e) := by
  unfold readString
  split <;> simp

theorem readString_append {s r : List Char} {t : LooseText} (h : readString s = .ok (t, r))
    (k : List Char) : readString (s ++ k) = .ok (t, r ++ k) := by
  obtain ⟨ls, hs, rfl⟩ := readString_eq_ok.1 h
  exact readString_eq_ok.2 ⟨ls, string?_append hs (by simp) k, rfl⟩

theorem readString_suffix {s r : List Char} {t : LooseText} (h : readString s = .ok (t, r)) :
    r <:+ s := by
  obtain ⟨ls, hs, rfl⟩ := readString_eq_ok.1 h
  exact string?_suffix hs

end CodeAudit.Json.Reader
