import ShardListener.TxDedup.Store

namespace TxDedup

variable {s : Store} {cfg cfg' : Config}

-- Under one prefix, the deployments have keys of their own.
theorem egressHead_eq_iff (hp : cfg.egressPrefix = cfg'.egressPrefix) :
    cfg.egressHead = cfg'.egressHead ↔ cfg.deploymentID = cfg'.deploymentID := by
  constructor
  case mpr => intro hd; simp only [Config.egressHead, hp, hd]
  case mp =>
    intro h
    simp only [Config.egressHead, hp] at h
    generalize (if cfg'.egressPrefix = "" then "bsl:egr:" else cfg'.egressPrefix) = base at h
    have hne (d : String) : base ≠ base ++ d ++ ":" := by
      intro h
      simpa [String.toList_append] using congrArg (List.length ∘ String.toList) h
    split at h
    case isTrue hd =>
      split at h
      case isTrue hd' => rw [hd, hd']
      case isFalse    => exact absurd h (hne _)
    case isFalse =>
      split at h
      case isTrue  => exact absurd h.symm (hne _)
      case isFalse =>
        have h := congrArg String.toList h
        simp only [String.toList_append, List.append_assoc] at h
        exact String.toList_inj.mp (List.append_cancel_right (List.append_cancel_left h))

theorem egress_of_newWithConfig (h : newWithConfig cfg = .ok s) :
    s.egress = ⟨cfg.egressHead, cfg.egressTTL⟩ := by
  unfold newWithConfig at h
  split at h
  case isTrue  => cases h
  case isFalse =>
    dsimp only at h
    split_ifs at h
    case neg => cases h; rfl
    case neg => cases h; rfl

end TxDedup
