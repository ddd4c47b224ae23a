import Mathlib.Logic.Relation
import OwopServer.Server.Addresses

/-!
# The limit of connections

`Server::set_max_ip_conns` closes connections until no address is above the limit, but for those
of administrators.  It closes a connection only while more than the limit are counted for its
address, so that it brings no counter below the limit.
-/

namespace Owop

open Bytes (ofString)

namespace Server

variable {s s' : Server} {max : UInt8}

/-! ### A turn of the loop -/

/-- More than `max` connections are counted for the address of a connection, and it has no
administrator. -/
theorem overLimit_iff {ws : Ws} {si : SocketInfo} (h : s.Consistent) (hws : s.infos ws = some si) :
  s.overLimit max ws = true ↔ max.toNat < Counters.value s.conns si.ip ∧
    ∀ p cl, si.player = some p → s.clients p = some cl → cl.isAdmin = false
  := by
  have hcount : (s.conns.lookup si.ip).any (fun n => decide (n > max)) = true
      ↔ max.toNat < Counters.value s.conns si.ip := by
    rw [Counters.value]
    cases s.conns.lookup si.ip with
    | none => simp
    | some n => simp [UInt8.lt_iff_toNat_lt]
  rw [overLimit, hws, Option.any_some, Bool.and_eq_true, hcount]
  apply and_congr_right
  intro _
  cases hplayer : si.player with
  | none => simp
  | some p =>
      obtain ⟨cl, hcl, -⟩ := h.live_of_player hws hplayer
      dsimp only
      rw [hcl.1, Option.any_some]
      constructor
      · intro hnot q cl' hq hcl'
        obtain rfl := Option.some.inj hq
        rw [hcl.1] at hcl'
        obtain rfl := Option.some.inj hcl'
        simpa using hnot
      · intro hall
        simpa using hall p cl rfl hcl.1

/-- What a limit spares: the connections of addresses that are not above it and those of
administrators stay, and a counter above it does not fall below it. -/
structure Spares (max : UInt8) (s s' : Server) : Prop where
  under : ∀ ws si, s.infos ws = some si → Counters.value s.conns si.ip ≤ max.toNat →
    s'.infos ws = some si
  admins : ∀ p cl, s.Live p cl → cl.isAdmin = true →
    s'.Live p cl ∧ s'.infos cl.ws = s.infos cl.ws
  same : ∀ ip, Counters.value s.conns ip ≤ max.toNat →
    Counters.value s'.conns ip = Counters.value s.conns ip
  above : ∀ ip, max.toNat ≤ Counters.value s.conns ip →
    max.toNat ≤ Counters.value s'.conns ip ∧
      Counters.value s'.conns ip ≤ Counters.value s.conns ip

theorem Spares.refl (max : UInt8) (s : Server) :
  Spares max s s
  := by
  constructor
  case under => exact fun _ _ hws _ => hws
  case admins => exact fun _ _ hp _ => ⟨hp, rfl⟩
  case same => exact fun _ _ => rfl
  case above => exact fun _ hle => ⟨hle, le_refl _⟩

theorem Spares.trans {s'' : Server} (h : Spares max s s') (h' : Spares max s' s'') :
  Spares max s s''
  := by
  constructor
  case under =>
    intro ws si hws hle
    apply h'.under ws si (h.under ws si hws hle)
    rw [h.same si.ip hle]
    exact hle
  case admins =>
    intro p cl hp hadmin
    obtain ⟨hp', hinfo⟩ := h.admins p cl hp hadmin
    obtain ⟨hp'', hinfo'⟩ := h'.admins p cl hp' hadmin
    exact ⟨hp'', hinfo'.trans hinfo⟩
  case same =>
    intro ip hle
    rw [h'.same ip (by rw [h.same ip hle]; exact hle), h.same ip hle]
  case above =>
    intro ip hle
    obtain ⟨hle₁, hge₁⟩ := h.above ip hle
    obtain ⟨hle₂, hge₂⟩ := h'.above ip hle₁
    exact ⟨hle₂, hge₂.trans hge₁⟩

variable [Platform]

/-- A connection without an administrator is closed while more than `max` are counted for its
address. -/
def ClosesOver (max : UInt8) (s s' : Server) : Prop :=
  ∃ ws si, s.infos ws = some si ∧ max.toNat < Counters.value s.conns si.ip ∧
    (∀ p cl, si.player = some p → s.clients p = some cl → cl.isAdmin = false) ∧
    s' = s.closeWs ws

/-- A turn of the loop. -/
theorem ClosesOver.spares (hc : ClosesOver max s s') (h : s.Consistent) :
  Spares max s s' ∧ s'.connsws.length < s.connsws.length ∧ s'.Consistent
  := by
  obtain ⟨ws, si, hws, hover, hadmin, rfl⟩ := hc
  have hinfos := closeWs_infos h hws
  obtain ⟨-, hconns, -⟩ := openFrom_closeWs h hws
  have hself : Counters.value (s.closeWs ws).conns si.ip = Counters.value s.conns si.ip - 1 := by
    rw [hconns, Counters.value_lower (by omega)]
  have hother : ∀ ip, ip ≠ si.ip →
      Counters.value (s.closeWs ws).conns ip = Counters.value s.conns ip := by
    intro ip hne
    rw [hconns, Counters.value_lower_ne hne]
  refine ⟨?_, ?_, ?_⟩
  · constructor
    case under =>
      intro ws' si' hws' hle
      have hne : ws' ≠ ws := by
        rintro rfl
        rw [hws] at hws'
        obtain rfl := Option.some.inj hws'
        omega
      rw [hinfos, Function.update_of_ne hne, hws']
    case admins =>
      intro p cl hp hcl
      have hne : cl.ws ≠ ws := by
        rintro rfl
        obtain ⟨si', hsi', hplayer⟩ := h.info_of_live hp
        rw [hws] at hsi'
        obtain rfl := Option.some.inj hsi'
        rw [hadmin p cl hplayer hp.1] at hcl
        cases hcl
      exact ⟨hp.closeWs h hws hne, by rw [hinfos, Function.update_of_ne hne]⟩
    case same =>
      intro ip hle
      apply hother
      rintro rfl
      omega
    case above =>
      intro ip hle
      obtain rfl | hne := eq_or_ne ip si.ip
      · rw [hself]
        omega
      · rw [hother ip hne]
        exact ⟨hle, le_refl _⟩
  · rw [closeWs_checked h hws, drop_rest h hws]
    apply List.length_filter_lt_length_iff_exists.mpr
    exact ⟨ws, h.mem_connsws.mpr ⟨si, hws⟩, by simp⟩
  · exact (closeWs_chain (D := Scope.all) h hws trivial fun _ _ _ _ => trivial).consistent h

/-! ### The loop -/

/-- With a turn for each connection and one more, the loop ends with nothing left to close. -/
theorem limitLoop_closes (max : UInt8) {fuel : ℕ} (h : s.Consistent)
    (hfuel : s.connsws.length < fuel) :
  Relation.ReflTransGen (ClosesOver max) s (limitLoop max fuel s) ∧
    Spares max s (limitLoop max fuel s) ∧ (limitLoop max fuel s).Consistent ∧
    (limitLoop max fuel s).connsws.find? ((limitLoop max fuel s).overLimit max) = none
  := by
  induction fuel generalizing s with
  | zero => exact absurd hfuel (Nat.not_lt_zero _)
  | succ fuel ih =>
      rw [limitLoop]
      split
      case h_1 ws hfind =>
        obtain ⟨si, hsi, -⟩ := overLimit_spec (List.find?_some hfind)
        obtain ⟨hover, hadmin⟩ := (overLimit_iff h hsi).mp (List.find?_some hfind)
        have hc : ClosesOver max s (s.kickWs ws) :=
          ⟨ws, si, hsi, hover, hadmin, kickWs_eq h hsi⟩
        obtain ⟨hspares, hlen, h'⟩ := hc.spares h
        obtain ⟨hcloses, hrest, hconsistent, hend⟩ := ih h' (by omega)
        exact ⟨.head hc hcloses, hspares.trans hrest, hconsistent, hend⟩
      case h_2 hfind => exact ⟨.refl, Spares.refl max s, h, hfind⟩

/-- More turns change nothing. -/
theorem limitLoop_stable {fuel fuel' : ℕ} (h : s.Consistent) (hfuel : s.connsws.length < fuel)
    (hfuel' : s.connsws.length < fuel') :
  limitLoop max fuel s = limitLoop max fuel' s
  := by
  induction fuel generalizing s fuel' with
  | zero => exact absurd hfuel (Nat.not_lt_zero _)
  | succ fuel ih =>
      obtain ⟨fuel', rfl⟩ : ∃ n, fuel' = n + 1 := ⟨fuel' - 1, by omega⟩
      rw [limitLoop, limitLoop]
      split
      case h_1 ws hfind =>
        obtain ⟨si, hsi, -⟩ := overLimit_spec (List.find?_some hfind)
        obtain ⟨hover, hadmin⟩ := (overLimit_iff h hsi).mp (List.find?_some hfind)
        have hc : ClosesOver max s (s.kickWs ws) :=
          ⟨ws, si, hsi, hover, hadmin, kickWs_eq h hsi⟩
        obtain ⟨-, hlen, h'⟩ := hc.spares h
        exact ih h' (by omega) (by omega)
      case h_2 => rfl

/-- The loop of `set_max_ip_conns` ends, after a turn for each connection at most, with no
connection above the limit but those of administrators.  It closes connections one after the
other, each without an administrator and while more than the limit are counted for its address;
connections of administrators and of addresses that are not above the limit stay, and no counter
is brought below the limit. -/
theorem setMaxIpConns_exact (max : UInt8) (h : s.Consistent) :
  (∀ fuel, s.connsws.length < fuel →
    limitLoop max fuel { s with maxconns := max.toUInt32 } = s.setMaxIpConns max) ∧
  Relation.ReflTransGen (ClosesOver max) { s with maxconns := max.toUInt32 }
    (s.setMaxIpConns max) ∧
  (∀ ws si, (s.setMaxIpConns max).infos ws = some si →
    max.toNat < Counters.value (s.setMaxIpConns max).conns si.ip →
    ∃ p cl, si.player = some p ∧ (s.setMaxIpConns max).clients p = some cl ∧
      cl.isAdmin = true) ∧
  (∀ ws si p cl, s.infos ws = some si → si.player = some p → s.clients p = some cl →
    cl.isAdmin = true →
    (s.setMaxIpConns max).infos ws = some si ∧ (s.setMaxIpConns max).clients p = some cl) ∧
  (∀ ip, Counters.value s.conns ip ≤ max.toNat →
    Counters.value (s.setMaxIpConns max).conns ip = Counters.value s.conns ip) ∧
  (∀ ip, max.toNat ≤ Counters.value s.conns ip →
    max.toNat ≤ Counters.value (s.setMaxIpConns max).conns ip) ∧
  (∀ ws si, s.infos ws = some si → Counters.value s.conns si.ip ≤ max.toNat →
    (s.setMaxIpConns max).infos ws = some si)
  := by
  have hconfig : Consistent { s with maxconns := max.toUInt32 } :=
    ⟨h.registry, h.defaultRank, h.origin, h.proxies⟩
  obtain ⟨hcloses, hspares, hconsistent, hend⟩ :=
    limitLoop_closes max hconfig (Nat.lt_succ_self s.connsws.length)
  refine ⟨?_, hcloses, ?_, ?_, hspares.same, fun ip hle => (hspares.above ip hle).1,
    hspares.under⟩
  · exact fun fuel hfuel => limitLoop_stable hconfig hfuel (Nat.lt_succ_self _)
  · intro ws si hws hover
    have hnot := List.find?_eq_none.mp hend ws (hconsistent.mem_connsws.mpr ⟨si, hws⟩)
    rw [overLimit_iff hconsistent hws] at hnot
    by_contra hnone
    apply hnot
    refine ⟨hover, fun p cl hp hcl => ?_⟩
    rw [Bool.eq_false_iff]
    exact fun hadmin => hnone ⟨p, cl, hp, hcl, hadmin⟩
  · intro ws si p cl hws hplayer hcl hadmin
    obtain ⟨cl', hp, rfl⟩ := h.live_of_player hws hplayer
    obtain rfl : cl = cl' := Option.some.inj (hcl.symm.trans hp.1)
    obtain ⟨hp', hinfo⟩ := hspares.admins p cl hp hadmin
    exact ⟨hinfo.trans hws, hp'.1⟩

omit [Platform] in
/-- A limit of two connections, when an address has three. -/
theorem setMaxIpConns_three :
  let _ := Platform.quiet
  2 ≤ Counters.value ((((Server.new (ofString "m") (ofString "a") [] (Disk.empty fun _ => true) 0).runs
    (List.replicate 3 (.connect (ofString "b")))).setMaxIpConns 2).conns) (ofString "b")
  := by
  intro _
  have h := (consistent_new (ofString "m") (ofString "a") [] (Disk.empty fun _ => true) 0).runs
    (List.replicate 3 (.connect (ofString "b")))
  obtain ⟨-, -, -, -, -, habove, -⟩ := setMaxIpConns_exact 2 h
  exact habove (ofString "b") (by decide +kernel)

end Server

end Owop
