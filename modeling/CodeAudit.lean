import CodeAudit.Architecture.Assess
import CodeAudit.Gateway
import CodeAudit.Json.Writer
import CodeAudit.Review.Schedule
import CodeAudit.Run
import CodeAudit.Settings.Source
import CodeAudit.Source.Project
import CodeAudit.Proofs.Review.Alone
import CodeAudit.Proofs.Run.Isolation
import CodeAudit.Proofs.Review.Fenced
import CodeAudit.Proofs.Review.LineMapping
import CodeAudit.Proofs.Review.Rejoin
import CodeAudit.Proofs.Review.Order
import CodeAudit.Proofs.Review.Throttle
import CodeAudit.Proofs.Rule.Failing
import CodeAudit.Proofs.Run.Fatal
import CodeAudit.Proofs.Run.Unanswered
import CodeAudit.Proofs.Score.Reordered
import CodeAudit.Proofs.Score.Counted
import CodeAudit.Proofs.Rule.Down
import CodeAudit.Proofs.Rule.Catalogued
import CodeAudit.Proofs.Architecture.Assessed
import CodeAudit.Proofs.Source.Listed
import CodeAudit.Proofs.Run.Understood
import CodeAudit.Proofs.Run.Averages
import CodeAudit.Proofs.Rule.Forks
import CodeAudit.Proofs.Rule.Concatenation
import CodeAudit.Proofs.Rule.Nesting
import CodeAudit.Proofs.Rule.Ternary
import CodeAudit.Proofs.Rule.Spelling
import CodeAudit.Proofs.Rule.Promise
import CodeAudit.Proofs.Rule.Unused
import CodeAudit.Proofs.Rule.Host
import CodeAudit.Proofs.Review.Complete
import CodeAudit.Proofs.Score.Inserted
import CodeAudit.Proofs.Review.Normalized
import CodeAudit.Proofs.Number.Error
import CodeAudit.Proofs.Score.Composite
import CodeAudit.Proofs.Score.Labelled
import CodeAudit.Proofs.Architecture.Block
import CodeAudit.Proofs.Architecture.Cut
import CodeAudit.Proofs.Rule.Marked
import CodeAudit.Proofs.Tree.Visited
